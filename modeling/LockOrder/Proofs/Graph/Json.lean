import LockOrder.Graph.Json
import LockOrder.Proofs.Stack.Json

/-!
# Written graphs are read back

A graph is read back from every form that it has, and so from the text that it is written as,
whether or not its structure is sound: its arrays may be of different lengths and its numbers may
point anywhere, as long as they are words.

## Main definitions

* `Graph.Fits` — the numbers of a graph are words
* `StackPair.form`, `Edge.form`, `Graph.form` — the texts for a value

## Main results

* `StackPair.accepts_read`, `Edge.accepts_read`, `Graph.accepts_read` — the readers take every form
  of a value for that value
* `StackPair.reads_json`, `Edge.reads_json`, `Graph.reads_json` — the readers take a written value
  for that value
-/

namespace LockOrder

open Json (Reads Form Accepts held isSome_held)
open Text (octets)

namespace StackPair

/-- The numbers of a pair of stacks are words. -/
def Fits (p : StackPair) : Prop := p.first.Fits ∧ p.second.Fits ∧ p.count < wordBound

instance : DecidablePred Fits := fun _ => inferInstanceAs (Decidable (_ ∧ _ ∧ _))

/-- The fields of a pair of stacks; the stacks may be null if they are empty. -/
def fields (p : StackPair) : List (String × Form) :=
  [("S1", p.first.form.orNull (p.first = ⟨[]⟩)), ("S2", p.second.form.orNull (p.second = ⟨[]⟩)),
    ("Count", .number p.count)]

/-- A pair of stacks is written as a record. -/
def form (p : StackPair) : Form := .record p.fields

theorem form_json (p : StackPair) : p.form none (octets p.json) :=
  Form.record_object
    (.cons ⟨rfl, .inl p.first.form_json⟩ (.cons ⟨rfl, .inl p.second.form_json⟩
      (.cons ⟨rfl, Form.number_decimal p.count⟩ .nil)))

/-- A pair of stacks of which the given fields were read. -/
def draft (p : StackPair) (seen : List String) : Draft :=
  ⟨held seen "S1" p.first, held seen "S2" p.second, held seen "Count" p.count⟩

theorem assembles {p : StackPair} (hp : p.Fits) : Json.Assembles layout p.draft p.fields p where
  nodup := by simp [fields]
  start_eq := rfl
  fills := by
    obtain ⟨hfirst, hsecond, hcount⟩ := hp
    have rcount : Accepts readCount _ p.count := Json.accepts_natural hcount (Nat.le_refl _) _
    refine .cons ?_ (.cons ?_ (.cons ?_ .nil))
    · exact .of_accepts (Stack.accepts_readNullable hfirst) (fun _ => isSome_held _)
        fun seen => by simp [draft]
    · exact .of_accepts (Stack.accepts_readNullable hsecond) (fun _ => isSome_held _)
        fun seen => by simp [draft]
    · exact .of_accepts rcount (fun _ => isSome_held _) fun seen => by simp [draft]
  finish_eq seen hseen := by
    simp only [fields, List.forall_mem_cons] at hseen
    simp [layout, draft, Json.held_of_mem, hseen]

theorem accepts_read {p : StackPair} (hp : p.Fits) : Accepts read p.form p :=
  (assembles hp).accepts_record

theorem reads_json {p : StackPair} (hp : p.Fits) : Reads read (octets p.json) p :=
  (accepts_read hp).reads p.form_json

end StackPair

namespace Edge

/-- The numbers of the evidence of an edge are words. -/
def Fits (e : Edge) : Prop := ∀ p ∈ e.pairs, p.Fits

instance : DecidablePred Fits := fun e => inferInstanceAs (Decidable (∀ p ∈ e.pairs, _))

/-- The fields of the evidence of an edge. -/
def fields (e : Edge) : List (String × Form) := [("Stacks", .list StackPair.form e.pairs)]

/-- The evidence of an edge is written as a record. -/
def form (e : Edge) : Form := .record e.fields

theorem form_json (e : Edge) : e.form none (octets e.json) :=
  Form.record_object (.cons ⟨rfl, Form.list_array fun p _ => p.form_json⟩ .nil)

/-- The evidence of an edge of which the given fields were read. -/
def draft (e : Edge) (seen : List String) : Option (List StackPair) := held seen "Stacks" e.pairs

theorem assembles {e : Edge} (he : e.Fits) : Json.Assembles layout e.draft e.fields e where
  nodup := by simp [fields]
  start_eq := rfl
  fills := by
    have rpairs := accepts_readNullableList fun p hp => StackPair.accepts_read (he p hp)
    refine .cons ?_ .nil
    exact .of_accepts rpairs (fun _ => isSome_held _) fun seen => by simp [draft]
  finish_eq seen hseen := by
    simp only [fields, List.forall_mem_cons] at hseen
    simp [layout, draft, Json.held_of_mem, hseen]

theorem accepts_read {e : Edge} (he : e.Fits) : Accepts read e.form e :=
  (assembles he).accepts_record

theorem reads_json {e : Edge} (he : e.Fits) : Reads read (octets e.json) e :=
  (accepts_read he).reads e.form_json

end Edge

namespace Graph

/-- The numbers of a graph are words. -/
def Fits (g : Graph) : Prop :=
  (∀ edges ∈ g.edges.toList, ∀ e ∈ edges, e.Fits) ∧
    ∀ targets ∈ g.targets.toList, ∀ t ∈ targets, t < wordBound

instance : DecidablePred Fits := fun g =>
  inferInstanceAs (Decidable ((∀ edges ∈ g.edges.toList, ∀ e ∈ edges, e.Fits) ∧ _))

/-- The fields of a graph; of the lists among them, those for each node may be null too. -/
def fields (g : Graph) : List (String × Form) :=
  [("Labels", .list .quoted g.labels.toList),
    ("Edges", .list (.list Edge.form) g.edges.toList),
    ("To", .list (.list .number) g.targets.toList),
    ("StackTable", g.table.form)]

/-- A graph is written as a record. -/
def form (g : Graph) : Form := .record g.fields

theorem form_json (g : Graph) : g.form none (octets g.json) :=
  Form.record_object
    (.cons ⟨rfl, Form.list_array fun s _ => Form.quoted_quote s⟩
      (.cons ⟨rfl, Form.list_array fun _ _ => Form.list_array fun e _ => e.form_json⟩
        (.cons ⟨rfl, Form.list_array fun _ _ => Form.list_array fun t _ => Form.number_decimal t⟩
          (.cons ⟨rfl, g.table.form_json⟩ .nil))))

/-- A graph of which the given fields were read. -/
def draft (g : Graph) (seen : List String) : Draft :=
  ⟨held seen "Labels" g.labels.toList, held seen "Edges" g.edges.toList,
    held seen "To" g.targets.toList, held seen "StackTable" g.table⟩

theorem assembles {g : Graph} (hg : g.Fits) : Json.Assembles layout g.draft g.fields g where
  nodup := by simp [fields]
  start_eq := rfl
  fills := by
    have rlabels := accepts_readNullableList
      fun s (_ : s ∈ g.labels.toList) => Json.accepts_text s
    have redges := accepts_readNullableList fun edges hmem =>
      accepts_readNullableList fun e he => Edge.accepts_read (hg.1 edges hmem e he)
    have rtargets := accepts_readNullableList fun targets hmem =>
      accepts_readNullableList fun t ht => accepts_readIndex (hg.2 targets hmem t ht)
    refine .cons ?_ (.cons ?_ (.cons ?_ (.cons ?_ .nil)))
    · exact .of_accepts rlabels (fun _ => isSome_held _) fun seen => by simp [draft]
    · exact .of_accepts redges (fun _ => isSome_held _) fun seen => by simp [draft]
    · exact .of_accepts rtargets (fun _ => isSome_held _) fun seen => by simp [draft]
    · exact .of_accepts g.table.accepts_read (fun _ => isSome_held _) fun seen => by simp [draft]
  finish_eq seen hseen := by
    simp only [fields, List.forall_mem_cons] at hseen
    simp [layout, draft, Json.held_of_mem, hseen]

theorem accepts_read {g : Graph} (hg : g.Fits) : Accepts read g.form g :=
  (assembles hg).accepts_record

theorem reads_json {g : Graph} (hg : g.Fits) : Reads read (octets g.json) g :=
  (accepts_read hg).reads g.form_json

end Graph

end LockOrder

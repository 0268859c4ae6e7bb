import LockOrder.Proofs.Json.Record
import LockOrder.Stack.Json

/-!
# Written stacks are read back

Frames, stacks and tables of names are read back from every form that they have, and so from the
text that they are written as. The numbers of a frame have to be words, since a reader refuses a
larger one.

## Main definitions

* `Pos.Fits`, `Stack.Fits` — the numbers of a frame or a stack are words
* `Pos.form`, `Stack.form`, `StringTable.form`, `StackTable.form` — the texts for a value

## Main results

* `Pos.accepts_read`, `Stack.accepts_read`, `StringTable.accepts_read`, `StackTable.accepts_read` —
  the readers take every form of a value for that value
* `Pos.reads_json`, `Stack.reads_json`, `StringTable.reads_json`, `StackTable.reads_json` — the
  readers take a written value for that value
-/

namespace LockOrder

open Json (Reader Reads Cut Form Slip Gap Padded Accepts separated bind_of_eq_ok)
open Text (octets decimal)

/-- A list that may be null is read if its elements are. -/
theorem accepts_readNullableList {α : Type} {item : Reader α} {form : α → Form} {as : List α}
    (h : ∀ a ∈ as, Accepts item (form a) a) : Accepts (readNullableList item) (.list form as) as :=
  (Json.accepts_listOf h).orNull id

theorem accepts_readIndex {n : Nat} (hn : n < wordBound) : Accepts readIndex (.number n) n :=
  Json.accepts_natural hn (Nat.le_refl _) _

theorem accepts_readLine {n : Nat} (hn : n < lineBound) : Accepts readLine (.number n) n :=
  Json.accepts_natural hn (by decide) _

/-! ### Frames -/

namespace Pos

/-- The numbers of a frame are words. -/
def Fits : Pos → Prop
  | .resolved file func line => file < wordBound ∧ func < wordBound ∧ line < lineBound
  | .unresolved _ => True

instance : DecidablePred Fits
  | .resolved .. => inferInstanceAs (Decidable (_ ∧ _ ∧ _))
  | .unresolved _ => .isTrue trivial

/-- A frame is written as the array of its numbers, or as its text. -/
def form : Pos → Form
  | .resolved file func line => .sequence .list [.number file, .number func, .number line]
  | .unresolved text => .quoted text

theorem form_json (pos : Pos) : pos.form none (octets pos.json) := by
  cases pos with
  | resolved file func line =>
    have hnumbers : ∀ n ∈ [file, func, line], Form.number n none (octets (decimal n)) :=
      fun n _ => Form.number_decimal n
    exact Form.sequence_array hnumbers
  | unresolved text => exact Form.quoted_quote text

variable {item : Reader Nat} {n : Nat} {text gap gap' : List UInt8} {slip? : Option Slip}

/-- The comma before a number and the white space around it are taken off. -/
theorem readElement_padded {before core : List UInt8}
    (hopens : ∃ b tail, core = b :: tail ∧ Json.isStop b = false) (hgap : Gap gap)
    (hbefore : Gap before) (position : Nat) (after : List UInt8) (texts : List (List UInt8))
    (rest : List UInt8) (cut : Option Cut) :
    readElement position item
        ⟨gap ++ (separated (position = 0) ((before ++ (core ++ after)) :: texts) ++ rest), cut⟩ =
      item ⟨core ++ (after ++ (separated false texts ++ rest)), cut⟩ := by
  simp only [separated, List.append_assoc]
  rw [readElement, bind_of_eq_ok (Json.moreElements_item hopens hgap hbefore _), if_pos rfl]

/-- A number of a frame is taken off, together with the comma before it. -/
theorem readElement_item (h : Accepts item (.number n) n)
    (htext : Padded (Form.number n slip?) text) (hgap : Gap gap) (hgap' : Gap gap')
    (position : Nat) (texts : List (List UInt8)) (rest : List UInt8) (cut : Option Cut) :
    slip? = none ∧ ∃ after, Gap after ∧
      readElement position item
          ⟨gap ++ (separated (position = 0) (text :: texts) ++ (gap' ++ 0x5D :: rest)), cut⟩ =
        .ok (n, ⟨after ++ (separated false texts ++ (gap' ++ 0x5D :: rest)), cut⟩) := by
  obtain ⟨before, core, after, hbefore, hcore, hafter, rfl⟩ := htext
  have hread := h.responds hcore _ cut (Json.stops_in_brackets .list hafter texts hgap' rest cut)
  obtain ⟨rfl, -⟩ := id hcore
  refine ⟨rfl, after, hafter, ?_⟩
  rw [readElement_padded (h.opens hcore) hgap hbefore]
  exact hread

theorem read_resolved {file func line : Nat} (hpos : (resolved file func line).Fits)
    (htext : (resolved file func line).form slip? text) (rest : List UInt8) (cut : Option Cut) :
    read ⟨text ++ rest, cut⟩ = Json.verdict slip? (resolved file func line, ⟨rest, cut⟩) := by
  obtain ⟨hfile, hfunc, hline⟩ := hpos
  obtain ⟨parts, gap, hparts, hgap, rfl, rfl⟩ := htext
  obtain _ | ⟨tfile, _ | ⟨tfunc, _ | ⟨tline, ⟨⟩⟩⟩⟩ := hparts
  obtain ⟨hslip, after, hafter, hread⟩ := readElement_item (accepts_readIndex hfile) tfile
    Json.gap_nil hgap 0 [_, _] rest cut
  obtain ⟨hslip', after', hafter', hread'⟩ := readElement_item (accepts_readIndex hfunc) tfunc
    hafter hgap 1 [_] rest cut
  obtain ⟨hslip'', after'', hafter'', hread''⟩ := readElement_item (accepts_readLine hline) tline
    hafter' hgap 2 [] rest cut
  have hend : Json.moreElements false
      ⟨after'' ++ (separated false [] ++ (gap ++ 0x5D :: rest)), cut⟩ =
        .ok (false, ⟨0x5D :: rest, cut⟩) := by
    rw [separated, List.nil_append, ← List.append_assoc]
    exact Json.moreElements_close (hafter''.append hgap) false
  rw [Json.Bracket.enclose_append, read, bind_of_eq_ok (Json.skipBlanksTo_cons (by decide))]
  change (Json.advance >>= fun _ => _) _ = _
  rw [bind_of_eq_ok Json.advance_cons]
  refine (bind_of_eq_ok hread _).trans ((bind_of_eq_ok hread' _).trans
    ((bind_of_eq_ok hread'' _).trans ((bind_of_eq_ok hend _).trans ?_)))
  simp only [List.findSome?_cons, List.findSome?_nil, hslip, hslip', hslip'']
  exact bind_of_eq_ok (Json.closeList_gap Json.gap_nil) _

theorem accepts_read {pos : Pos} (hpos : pos.Fits) : Accepts read pos.form pos where
  skips := Json.skipsGaps_skipBlanksTo.bind _
  opens := by
    intro slip? text htext
    cases pos with
    | resolved file func line =>
      obtain ⟨tail, rfl⟩ := Form.sequence.exists_cons htext
      exact ⟨_, tail, rfl, rfl⟩
    | unresolved s => exact (Json.accepts_text s).opens htext
  responds := by
    intro slip? text htext rest cut _
    cases pos with
    | resolved file func line => exact read_resolved hpos htext rest cut
    | unresolved s =>
      obtain ⟨rfl, body, hbody, rfl⟩ := htext
      rw [List.cons_append, List.append_assoc, List.singleton_append, read,
        bind_of_eq_ok (Json.skipBlanksTo_cons (by decide))]
      change (Json.advance >>= fun _ => _) _ = _
      rw [bind_of_eq_ok Json.advance_cons, bind_of_eq_ok (Json.stringBody_of_spells hbody)]
      rfl

theorem reads_json {pos : Pos} (hpos : pos.Fits) : Reads read (octets pos.json) pos :=
  (accepts_read hpos).reads pos.form_json

end Pos

/-! ### Stacks and tables -/

namespace Stack

/-- The numbers of all frames of a stack are words. -/
def Fits (s : Stack) : Prop := ∀ pos ∈ s.frames, pos.Fits

instance : DecidablePred Fits := fun s => inferInstanceAs (Decidable (∀ pos ∈ s.frames, _))

/-- A stack is written as the array of its frames. -/
def form (s : Stack) : Form := .sequence .list (s.frames.map Pos.form)

variable {s : Stack}

theorem form_json (s : Stack) : s.form none (octets s.json) :=
  Form.sequence_array fun pos _ => pos.form_json

theorem accepts_read (hs : s.Fits) : Accepts read s.form s :=
  (Json.accepts_listOf fun pos hpos => Pos.accepts_read (hs pos hpos)).map Stack.mk

theorem accepts_readNullable (hs : s.Fits) :
    Accepts readNullable (s.form.orNull (s = ⟨[]⟩)) s :=
  (accepts_read hs).orNull id

theorem reads_json (hs : s.Fits) : Reads read (octets s.json) s :=
  (accepts_read hs).reads s.form_json

end Stack

namespace StringTable

/-- A string table is written as the array of its strings. -/
def form (t : StringTable) : Form := .sequence .list (t.strings.toList.map .quoted)

theorem form_json (t : StringTable) : t.form none (octets t.json) :=
  Form.sequence_array fun s _ => Form.quoted_quote s

theorem accepts_read (t : StringTable) : Accepts read t.form t := by
  have hlist := Json.accepts_listOf fun s (_ : s ∈ t.strings.toList) => Json.accepts_text s
  exact hlist.map fun strings => (⟨strings.toArray⟩ : StringTable)

theorem accepts_readNullable (t : StringTable) :
    Accepts readNullable (t.form.orNull (t = .empty)) t :=
  (accepts_read t).orNull id

theorem reads_json (t : StringTable) : Reads read (octets t.json) t :=
  (accepts_read t).reads t.form_json

end StringTable

namespace StackTable

/-- The fields of a stack table; each of them may be null if it is empty. -/
def fields (t : StackTable) : List (String × Form) :=
  [("Files", t.files.form.orNull (t.files = .empty)),
    ("Funcs", t.funcs.form.orNull (t.funcs = .empty))]

/-- A stack table is written as a record. -/
def form (t : StackTable) : Form := .record t.fields

theorem form_json (t : StackTable) : t.form none (octets t.json) :=
  Form.record_object
    (.cons ⟨rfl, .inl t.files.form_json⟩ (.cons ⟨rfl, .inl t.funcs.form_json⟩ .nil))

/-- A stack table of which the given fields were read. -/
def draft (t : StackTable) (seen : List String) : Draft :=
  ⟨Json.held seen "Files" t.files, Json.held seen "Funcs" t.funcs⟩

theorem assembles (t : StackTable) : Json.Assembles layout t.draft t.fields t where
  nodup := by simp [fields]
  start_eq := rfl
  fills := by
    refine .cons ?_ (.cons ?_ .nil)
    · exact .of_accepts t.files.accepts_readNullable (fun _ => Json.isSome_held _)
        fun seen => by simp [draft]
    · exact .of_accepts t.funcs.accepts_readNullable (fun _ => Json.isSome_held _)
        fun seen => by simp [draft]
  finish_eq seen hseen := by
    simp only [fields, List.forall_mem_cons] at hseen
    simp [layout, draft, Json.held_of_mem, hseen]

theorem accepts_read (t : StackTable) : Accepts read t.form t := t.assembles.accepts_record

theorem reads_json (t : StackTable) : Reads read (octets t.json) t :=
  (accepts_read t).reads t.form_json

end StackTable

end LockOrder

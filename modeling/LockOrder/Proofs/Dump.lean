import LockOrder.Dump.Basic
import LockOrder.Proofs.Base64
import LockOrder.Proofs.Deflate.Store
import LockOrder.Proofs.Graph.Json
import Mathlib.Data.List.TakeWhile

/-!
# Dumps are loaded back

A dump of a graph, with any white space put into it, is loaded as that graph if its structure is
sound, and is refused with the first flaw of the structure otherwise. Neither the blocks of the
base64 text nor those of the compressed data can be seen from outside: the reader gets the whole
JSON text, and its end.

## Main definitions

* `Dump.Spaced` — white space was put into a text
* `Dump.Carries` — a text is a dump of a graph, whatever compressed it

## Main results

* `Dump.deliver_complete` — the reader gets all that is inflated, if the data is complete
* `Dump.feedOf_encode` — the reader of a dump gets the JSON text that was compressed
* `Dump.load_write` — a dump is loaded back, and so is every part of a graph from its JSON text
-/

namespace LockOrder.Dump

open Deflate (Octet Ending)

/-! ### Delivery -/

section Delivery

variable {need past avail size : Nat} {output : List Octet} {sizes : List Nat}

theorem deliver_of_all_ready (h : ∀ octet ∈ output, octet.need ≤ avail + size)
    (hneed : need ≤ avail + size) :
    deliver (.complete need) false past avail output (size :: sizes) =
      ⟨output.map Octet.value, none⟩ := by
  have hready : output.takeWhile (·.need ≤ avail + size) = output := by
    simpa [List.takeWhile_eq_self_iff] using h
  have hlater : output.dropWhile (·.need ≤ avail + size) = [] := by
    simpa [List.dropWhile_eq_nil_iff] using h
  simp [deliver, hready, hlater, hneed]

theorem deliver_of_waiting (past : Nat)
    (h : ¬ (output.dropWhile (·.need ≤ avail + size) = [] ∧ need ≤ avail + size))
    (hmore : sizes ≠ []) :
    ∃ past', deliver (.complete need) false past avail output (size :: sizes) =
      let rest := deliver (.complete need) false past' (avail + size)
        (output.dropWhile (·.need ≤ avail + size)) sizes
      ⟨(output.takeWhile (·.need ≤ avail + size)).map Octet.value ++ rest.bytes, rest.cut⟩ := by
  refine ⟨past + ((output.takeWhile (·.need ≤ avail + size)).map Octet.value).length, ?_⟩
  have hwait : ((output.dropWhile (·.need ≤ avail + size)).isEmpty &&
      decide (need ≤ avail + size)) = false := by
    simpa [List.isEmpty_iff] using h
  have hsizes : sizes.isEmpty = false := by simpa using hmore
  simp only [deliver, hwait, hsizes, Bool.false_and, Bool.false_eq_true, if_false]

theorem deliver_complete (hsizes : sizes ≠ []) (hneed : need ≤ avail + total sizes)
    (hneeds : ∀ octet ∈ output, octet.need ≤ avail + total sizes) :
    deliver (.complete need) false past avail output sizes = ⟨output.map Octet.value, none⟩ := by
  induction sizes generalizing past avail output with
  | nil => exact absurd rfl hsizes
  | cons size sizes ih =>
    rw [total_cons, ← Nat.add_assoc] at hneed hneeds
    by_cases hdone : output.dropWhile (·.need ≤ avail + size) = [] ∧ need ≤ avail + size
    · refine deliver_of_all_ready (fun octet hmem => ?_) hdone.2
      simpa using List.dropWhile_eq_nil_iff.mp hdone.1 octet hmem
    · -- Something is missing, so this was not the last block: after that one nothing is.
      have hmore : sizes ≠ [] := by
        rintro rfl
        exact hdone ⟨List.dropWhile_eq_nil_iff.mpr fun octet hmem =>
          decide_eq_true (hneeds octet hmem), hneed⟩
      obtain ⟨past', hstep⟩ := deliver_of_waiting past hdone hmore
      have hlater : ∀ octet ∈ output.dropWhile (·.need ≤ avail + size),
          octet.need ≤ avail + size + total sizes :=
        fun octet hmem => hneeds octet ((List.dropWhile_sublist _).mem hmem)
      rw [hstep, ih hmore hneed hlater]
      simp only [← List.map_append, List.takeWhile_append_dropWhile]

end Delivery

theorem total_map_length (parts : List (List UInt8)) :
    total (parts.map List.length) = parts.flatten.length := by
  induction parts with
  | nil => rfl
  | cons part parts ih => rw [List.map_cons, total_cons, ih, List.flatten_cons, List.length_append]

/-- The reader of base64 text gets all that the compressed data in it stands for, and its end. -/
theorem feedOf_encode {data bytes : List UInt8} (h : Deflate.Inflates data bytes) :
    feedOf (Base64.encode data) = ⟨bytes, none⟩ := by
  obtain ⟨parts, hsupply, hparts⟩ := Base64.supply_encode data
  obtain ⟨need, hending, hvalues⟩ := h
  obtain ⟨hneeds, hneed⟩ := Deflate.need_le_of_inflate data
  have htotal : total (parts.map List.length) = data.length := by rw [total_map_length, hparts]
  have hsizes : parts.map List.length ≠ [] := by
    -- Data without octets has no last block, so there is something to decode.
    intro hnil
    rw [hnil, total_nil] at htotal
    obtain rfl := List.eq_nil_of_length_eq_zero htotal.symm
    have hstarved : (Deflate.inflate []).ending = .starved := by decide
    rw [hstarved] at hending
    cases hending
  rw [feedOf, hsupply]
  simp only [hparts, hending]
  rw [deliver_complete hsizes, hvalues]
  · rw [htotal, Nat.zero_add]
    exact hneed need hending
  · intro octet hmem
    rw [htotal, Nat.zero_add]
    exact hneeds octet (Array.mem_def.mpr hmem)

/-! ### White space -/

/-- A text is another one with ASCII white space put in. -/
inductive Spaced : List UInt8 → List UInt8 → Prop where
  | nil : Spaced [] []
  | keep (b : UInt8) {dense text : List UInt8} (rest : Spaced dense text) :
      Spaced (b :: dense) (b :: text)
  | blank {b : UInt8} (hb : b ∈ [0x20, 0x09, 0x0A, 0x0C, 0x0D]) {dense text : List UInt8}
      (rest : Spaced dense text) : Spaced dense (b :: text)

theorem Spaced.refl (text : List UInt8) : Spaced text text := by
  induction text with
  | nil => exact .nil
  | cons b text ih => exact .keep b ih

theorem Spaced.filter_eq {dense text : List UInt8} (h : Spaced dense text)
    (hdense : ∀ b ∈ dense, isBlank b = false) : text.filter (fun b => !isBlank b) = dense := by
  induction h with
  | nil => rfl
  | keep b _ ih =>
    rw [List.filter_cons_of_pos (by simp [hdense b List.mem_cons_self]),
      ih fun c hc => hdense c (List.mem_cons_of_mem b hc)]
  | @blank b hb _ _ _ ih =>
    have hblank : isBlank b = true := by simpa [isBlank, or_assoc] using hb
    rw [List.filter_cons_of_neg (by simp [hblank]), ih hdense]

theorem isBlank_of_mem_encode {bytes : List UInt8} {b : UInt8} (hb : b ∈ Base64.encode bytes) :
    isBlank b = false := by
  rcases Base64.eq_of_mem_encode hb with rfl | ⟨v, hv, rfl⟩
  · decide
  · clear hb
    revert v
    decide

/-! ### Loading -/

/-- A base64 text is a dump of a graph: it holds the JSON text of the graph, compressed in whatever
way. -/
def Carries (dense : List UInt8) (g : Graph) : Prop :=
  ∃ data, dense = Base64.encode data ∧ Deflate.Inflates data g.json.toUTF8.toList

theorem carries_write (g : Graph) : Carries (write g) g :=
  ⟨_, rfl, Deflate.inflates_store _⟩

theorem load_of_spaced {g : Graph} {dense text : List UInt8} (hg : g.Fits) (h : Carries dense g)
    (htext : Spaced dense text) :
    load (.ok text) = (do
      g.check.mapError Error.graph
      return (g, .loaded dense.length g.nodeCount g.edgeCount)) := by
  obtain ⟨data, rfl, hdata⟩ := h
  have hfilter := htext.filter_eq fun _ => isBlank_of_mem_encode
  have hread : (Json.decodeFeed Graph.read (feedOf (text.filter fun b => !isBlank b))).mapError
      Error.ofFlaw = .ok g := by
    have hdecode := (Graph.reads_json hg).decodeFeed
    rw [hfilter, feedOf_encode hdata]
    exact congrArg (Except.mapError Error.ofFlaw) hdecode
  rw [load]
  change ((Json.decodeFeed Graph.read (feedOf (text.filter fun b => !isBlank b))).mapError
    Error.ofFlaw >>= fun _ => _) = _
  rw [hread, hfilter]
  rfl

/-- What is written for a graph is a dump of it. A dump with any white space put in is loaded as the
graph if the structure of the graph is sound, and refused with its first flaw otherwise. Each part
of a graph is decoded from its JSON text. -/
theorem load_write :
    (∀ g : Graph, Carries (write g) g) ∧
    (∀ g : Graph, g.Fits → ∀ dense, Carries dense g → ∀ text, Spaced dense text →
      (g.check = .ok () →
        load (.ok text) = .ok (g, .loaded dense.length g.nodeCount g.edgeCount)) ∧
      ∀ flaw, g.check = .error flaw →
        load (.ok text) = .error (.graph flaw) ∧ (Error.graph flaw).kind = .decode ∧
          (Error.graph flaw).layer = .graph ∧ (Error.graph flaw).message = flaw.message) ∧
    (∀ g : Graph, g.Fits → Json.decode Graph.read g.json = .ok g) ∧
    (∀ e : Edge, e.Fits → Json.decode Edge.read e.json = .ok e) ∧
    (∀ p : StackPair, p.Fits → Json.decode StackPair.read p.json = .ok p) ∧
    (∀ s : Stack, s.Fits → Json.decode Stack.read s.json = .ok s) ∧
    (∀ pos : Pos, pos.Fits → Json.decode Pos.read pos.json = .ok pos) ∧
    (∀ t : StackTable, Json.decode StackTable.read t.json = .ok t) ∧
    ∀ t : StringTable, Json.decode StringTable.read t.json = .ok t := by
  refine ⟨carries_write, fun g hg dense hdense text htext => ?_, ?_⟩
  · rw [load_of_spaced hg hdense htext]
    refine ⟨fun hcheck => ?_, fun flaw hcheck => ⟨?_, rfl, rfl, rfl⟩⟩
    · rw [hcheck]
      rfl
    · rw [hcheck]
      rfl
  · exact ⟨fun g hg => (Graph.reads_json hg).decode, fun e he => (Edge.reads_json he).decode,
      fun p hp => (StackPair.reads_json hp).decode, fun s hs => (Stack.reads_json hs).decode,
      fun pos hpos => (Pos.reads_json hpos).decode, fun t => (StackTable.reads_json t).decode,
      fun t => (StringTable.reads_json t).decode⟩

/-- The dump of a graph with the largest numbers that fit is loaded from a line of its own. -/
theorem load_write_largest :
    let g : Graph := ⟨#["\n\"", "é"],
      #[[⟨[⟨⟨[.resolved 0 0 0xFFFFFFFF]⟩, ⟨[.unresolved "?"]⟩, 0xFFFFFFFFFFFFFFFF⟩]⟩], []],
      #[[1], []], ⟨⟨#["a.c"]⟩, ⟨#["main"]⟩⟩⟩
    load (.ok (0x0A :: write g)) = .ok (g, .loaded (write g).length 2 1) := by
  intro g
  have hspaced : Spaced (write g) (0x0A :: write g) := .blank (by decide) (.refl _)
  exact (load_write.2.1 g (by decide) _ (load_write.1 g) _ hspaced).1 rfl

end LockOrder.Dump

import LockOrder.StringTable
import LockOrder.Proofs.Dictionary

/-!
# Interning strings

A string table is only ever added to at its end, so an index that is inside keeps its string. A
string that was added is found under the index that was given from then on, and that index is given
to no other string. This holds also of a table that comes with strings in it twice: the last
occurrence counts, and it stays the last one because a string that is there is not appended again.

Strings are looked up in an index. A table comes without one, and the first string that is added
makes it. An index, when there is one, finds each string where the table has it, so it does not
matter whether a string is found in the index that there is or in one that is made for it.

## Main definitions

* `StringTable.GrowsTo` — a table goes on from another
* `IndexedTable` — a string table with its index
* `IndexedTable.lookUp?`, `IndexedTable.addByIndex`, `IndexedTable.add` — the two ways of adding
* `IndexedTable.Agrees` — the index finds what the table has

## Main results

* `StringTable.toList_add` — what adding appends
* `StringTable.indexOf?_add`, `StringTable.indexOf?_addAll` — where strings are found afterwards
* `IndexedTable.Agrees.addByIndex`, `IndexedTable.Agrees.add` — both ways of adding do the same
* `IndexedTable.interning_stable` — interning along a run
-/

namespace LockOrder

namespace StringTable

variable {t t' t'' : StringTable} {s s' : String} {i : Nat}

/-! ### Reading -/

theorem get_eq_ok_iff : t.get i = .ok s ↔ t.strings.toList[i]? = some s := by
  rw [get, Array.getElem?_toList]
  cases t.strings[i]? <;> simp

theorem strings_of_get (h : t.get i = .ok s) : t.strings[i]? = some s := by
  rw [← Array.getElem?_toList]
  exact get_eq_ok_iff.mp h

theorem exists_get (h : i < t.size) : ∃ s, t.get i = .ok s :=
  ⟨_, get_eq_ok_iff.mpr (List.getElem?_eq_getElem h)⟩

theorem lt_size_of_get (h : t.get i = .ok s) : i < t.size :=
  (List.getElem?_eq_some_iff.mp (get_eq_ok_iff.mp h)).1

theorem indexOf?_eq_none_iff : t.indexOf? s = none ↔ s ∉ t.strings.toList := lastIndex?_eq_none_iff

/-- The index under which a string is found holds the string. -/
theorem get_of_indexOf? (h : t.indexOf? s = some i) : t.get i = .ok s :=
  get_eq_ok_iff.mpr (getElem?_of_lastIndex? h)

/-! ### Growing -/

/-- A table goes on from another: strings were added at the end, if at all. -/
def GrowsTo (t t' : StringTable) : Prop := t.strings.toList <+: t'.strings.toList

theorem GrowsTo.refl (t : StringTable) : t.GrowsTo t := List.prefix_rfl

theorem GrowsTo.trans (h : t.GrowsTo t') (h' : t'.GrowsTo t'') : t.GrowsTo t'' :=
  List.IsPrefix.trans h h'

theorem GrowsTo.size_le (h : t.GrowsTo t') : t.size ≤ t'.size := List.IsPrefix.length_le h

/-- An index that is inside keeps its string. -/
theorem GrowsTo.get_eq (h : t.GrowsTo t') (hi : i < t.size) : t'.get i = t.get i := by
  have hstring : t'.strings[i]? = t.strings[i]? := by
    rw [← Array.getElem?_toList, Array.getElem?_eq_getElem hi]
    exact List.prefix_iff_getElem?.mp h i hi
  rw [get, get, hstring, Array.getElem?_eq_getElem hi]

/-! ### Adding -/

/-- A string that is nowhere in the table is appended; otherwise nothing changes. -/
theorem toList_add (t : StringTable) (s : String) :
    (t.add s).2.strings.toList =
      if s ∈ t.strings.toList then t.strings.toList else t.strings.toList ++ [s] := by
  rw [add]
  cases hfound : t.indexOf? s with
  | some i => rw [if_pos (List.mem_of_getElem? (getElem?_of_lastIndex? hfound))]
  | none => rw [if_neg (indexOf?_eq_none_iff.mp hfound), Array.toList_push]

theorem growsTo_add (t : StringTable) (s : String) : t.GrowsTo (t.add s).2 := by
  rw [GrowsTo, toList_add]
  split
  · exact List.prefix_rfl
  · exact List.prefix_append _ _

theorem add_of_found (hfound : t.indexOf? s = some i) : t.add s = (i, t) := by rw [add, hfound]

theorem indexOf?_push (t : StringTable) (s s' : String) :
    (StringTable.mk (t.strings.push s)).indexOf? s' =
      if s = s' then some t.size else t.indexOf? s' := by
  rw [indexOf?, Array.toList_push, lastIndex?_concat]
  rfl

/-- A string that was added is found under the index that was given. -/
theorem indexOf?_add (t : StringTable) (s : String) :
    (t.add s).2.indexOf? s = some (t.add s).1 := by
  rw [add]
  cases hfound : t.indexOf? s with
  | some i => exact hfound
  | none => rw [indexOf?_push, if_pos rfl]

/-- A string that is found stays where it is when a string is added. -/
theorem indexOf?_add_of_found (hfound : t.indexOf? s = some i) (s' : String) :
    (t.add s').2.indexOf? s = some i := by
  rw [add]
  cases hother : t.indexOf? s' with
  | some j => exact hfound
  | none =>
    -- what is appended is another string, since it was not found
    have hne : s' ≠ s := by
      rintro rfl
      exact nomatch hother.symm.trans hfound
    rw [indexOf?_push, if_neg hne]
    exact hfound

/-- The index of a string is given to no other string. -/
theorem add_ne_of_ne (hfound : t.indexOf? s = some i) (hne : s' ≠ s) : (t.add s').1 ≠ i := by
  rintro rfl
  -- otherwise both strings would stand at that index afterwards
  have hkept := get_of_indexOf? (indexOf?_add_of_found hfound s')
  have hadded := get_of_indexOf? (t.indexOf?_add s')
  exact hne (Except.ok.inj (hadded.symm.trans hkept))

/-- The table after strings were added in turn. -/
def addAll (t : StringTable) (ss : List String) : StringTable :=
  ss.foldl (fun t s => (t.add s).2) t

theorem growsTo_addAll (t : StringTable) (ss : List String) : t.GrowsTo (t.addAll ss) := by
  induction ss generalizing t with
  | nil => exact .refl t
  | cons s ss ih => exact (t.growsTo_add s).trans (ih _)

/-- A string that is found stays where it is along a run. -/
theorem indexOf?_addAll (hfound : t.indexOf? s = some i) (ss : List String) :
    (t.addAll ss).indexOf? s = some i := by
  induction ss generalizing t with
  | nil => exact hfound
  | cons s' ss ih => exact ih (indexOf?_add_of_found hfound s')

end StringTable

/-! ### The index of a table -/

/-- A string table with the index in which its strings are looked up, once that is made. -/
structure IndexedTable where
  /-- The strings. -/
  table : StringTable
  /-- Where each of them stands. -/
  index : Option (Dictionary String Nat)
deriving DecidableEq, Repr

namespace IndexedTable

variable {t : IndexedTable} {s : String} {i : Nat}

/-- A table as it comes, without an index. -/
def ofTable (table : StringTable) : IndexedTable := ⟨table, none⟩

/-- Where the index has a string, if there is an index. -/
def lookUp? (t : IndexedTable) (s : String) : Option Nat := t.index.bind fun index => index.get? s

/-- Adds a string by the index, which is made of the table if there is none. -/
def addByIndex (t : IndexedTable) (s : String) : Nat × IndexedTable :=
  let index := t.index.getD (.positions t.table.strings.toList)
  match index.get? s with
  | some i => (i, ⟨t.table, some index⟩)
  | none => (t.table.size, ⟨⟨t.table.strings.push s⟩, some (index.insert s t.table.size)⟩)

/-- Adds a string. One that the index has is not looked up again. -/
def add (t : IndexedTable) (s : String) : Nat × IndexedTable :=
  match t.lookUp? s with
  | some i => (i, t)
  | none => t.addByIndex s

/-- The table after strings were added in turn. -/
def addAll (t : IndexedTable) (ss : List String) : IndexedTable :=
  ss.foldl (fun t s => (t.add s).2) t

/-- The index, if there is one, has each string where the table has it, and no other string. -/
def Agrees (t : IndexedTable) : Prop :=
  ∀ index, t.index = some index → ∀ s, index.get? s = t.table.indexOf? s

theorem agrees_ofTable (table : StringTable) : (ofTable table).Agrees := fun _ h => nomatch h

/-- The index that there is, or else the one that is made, has what the table has. -/
theorem Agrees.get?_getD (h : t.Agrees) (s : String) :
    (t.index.getD (.positions t.table.strings.toList)).get? s = t.table.indexOf? s := by
  cases hindex : t.index with
  -- in an index that is made of the table, a later occurrence of a string replaces an earlier one
  | none => exact Dictionary.get?_positions _ s
  | some index => exact h index hindex s

theorem Agrees.indexOf?_eq (h : t.Agrees) (hfound : t.lookUp? s = some i) :
    t.table.indexOf? s = some i := by
  obtain ⟨index, hindex, hget⟩ := Option.bind_eq_some_iff.mp hfound
  exact (h index hindex s).symm.trans hget

/-- What was added to an indexed table was added to its strings, and its index agrees. -/
structure Adds (t : IndexedTable) (s : String) (result : Nat × IndexedTable) : Prop where
  /-- The index that is given. -/
  fst_eq : result.1 = (t.table.add s).1
  /-- The strings afterwards. -/
  table_eq : result.2.table = (t.table.add s).2
  /-- The index afterwards. -/
  agrees : result.2.Agrees

/-- Adding by the index adds to the strings, and leaves an index that agrees. -/
theorem Agrees.addByIndex (h : t.Agrees) (s : String) : t.Adds s (t.addByIndex s) := by
  rw [IndexedTable.addByIndex, h.get?_getD]
  cases hfound : t.table.indexOf? s with
  | some i =>
    have hadd : t.table.add s = (i, t.table) := StringTable.add_of_found hfound
    refine ⟨(congrArg Prod.fst hadd).symm, (congrArg Prod.snd hadd).symm, fun index hindex s' => ?_⟩
    obtain rfl := Option.some.inj hindex
    exact h.get?_getD s'
  | none =>
    have hadd : t.table.add s = (t.table.size, ⟨t.table.strings.push s⟩) := by
      rw [StringTable.add, hfound]
    refine ⟨(congrArg Prod.fst hadd).symm, (congrArg Prod.snd hadd).symm, fun index hindex s' => ?_⟩
    obtain rfl := Option.some.inj hindex
    -- the table has the string last, and the index has it there
    rw [Dictionary.get?_insert, h.get?_getD]
    exact (t.table.indexOf?_push s s').symm

/-- Adding adds to the strings, by whichever way, and keeps the index in agreement. -/
theorem Agrees.add (h : t.Agrees) (s : String) : t.Adds s (t.add s) := by
  rw [IndexedTable.add]
  cases hfound : t.lookUp? s with
  | none => exact h.addByIndex s
  | some i =>
    have hadd := StringTable.add_of_found (h.indexOf?_eq hfound)
    exact ⟨(congrArg Prod.fst hadd).symm, (congrArg Prod.snd hadd).symm, h⟩

/-- A run of additions adds to the strings, and keeps the index in agreement. -/
theorem Agrees.addAll (h : t.Agrees) (ss : List String) :
    (t.addAll ss).table = t.table.addAll ss ∧ (t.addAll ss).Agrees := by
  induction ss generalizing t with
  | nil => exact ⟨rfl, h⟩
  | cons s ss ih =>
    have hadds := h.add s
    obtain ⟨htable, hagrees⟩ := ih hadds.agrees
    refine ⟨htable.trans ?_, hagrees⟩
    rw [hadds.table_eq]
    rfl

/-! ### Runs -/

/-- **Interning is stable.** Let strings be added in turn to a table that comes without an index, be
it empty or with strings in it that may come twice. When a string is added, the strings of the
table stay where they are, then and later; the string is appended if it is nowhere in the table, and
otherwise nothing changes. The index that is given holds the string, then and later. A later
addition of the same string gives the same index, and one of another string gives another. It makes
no difference whether the string is found in the index that there is, or by the slower way, with
that index or with one made anew, or even by the slower way after other strings were added. -/
theorem interning_stable (start : StringTable) (before after : List String) (s : String) :
    let t := (ofTable start).addAll before
    let i := (t.add s).1
    let t₁ := (t.add s).2
    let t₂ := t₁.addAll after
    t.table.add s = (i, t₁.table) ∧
      t.table.strings.toList <+: t₁.table.strings.toList ∧
      t₁.table.strings.toList <+: t₂.table.strings.toList ∧
      (∀ j < t.table.size, ∃ text, t.table.get j = .ok text ∧ t₂.table.get j = .ok text) ∧
      t₁.table.strings.toList =
        (if s ∈ t.table.strings.toList then t.table.strings.toList
          else t.table.strings.toList ++ [s]) ∧
      t₁.table.get i = .ok s ∧ t₂.table.get i = .ok s ∧
      (t₂.add s).1 = i ∧ (∀ s', s' ≠ s → (t₂.add s').1 ≠ i) ∧
      (t.addByIndex s).1 = i ∧ (t.addByIndex s).2.table = t₁.table ∧
      ((ofTable t.table).add s).1 = i ∧ ((ofTable t.table).add s).2.table = t₁.table ∧
      ∀ j, t.lookUp? s = some j → (t₂.addByIndex s).1 = j := by
  intro t i t₁ t₂
  have ht : t.Agrees := ((agrees_ofTable start).addAll before).2
  have hadds : t.Adds s (t.add s) := ht.add s
  have hi : i = (t.table.add s).1 := hadds.fst_eq
  have htable : t₁.table = (t.table.add s).2 := hadds.table_eq
  obtain ⟨htable₂, ht₂⟩ := hadds.agrees.addAll after
  -- the string is found under its index from now on
  have hfound : t₁.table.indexOf? s = some i := by
    rw [htable, hi]
    exact t.table.indexOf?_add s
  have hfound₂ : t₂.table.indexOf? s = some i := by
    rw [htable₂]
    exact StringTable.indexOf?_addAll hfound after
  have hgrows : t.table.GrowsTo t₁.table := htable ▸ t.table.growsTo_add s
  have hgrows₂ : t₁.table.GrowsTo t₂.table := htable₂ ▸ t₁.table.growsTo_addAll after
  -- both ways of adding, and a new index, give what adding to the strings gives
  have hslow := ht.addByIndex s
  have hnew := (agrees_ofTable t.table).add s
  refine ⟨Prod.ext hi.symm htable.symm, hgrows, hgrows₂, fun j hj => ?kept, ?appended,
    StringTable.get_of_indexOf? hfound, StringTable.get_of_indexOf? hfound₂, ?again,
    fun s' hne => ?other, hslow.fst_eq.trans hi.symm, hslow.table_eq.trans htable.symm,
    hnew.fst_eq.trans hi.symm, hnew.table_eq.trans htable.symm, fun j hj => ?later⟩
  case kept =>
    obtain ⟨text, htext⟩ := StringTable.exists_get hj
    exact ⟨text, htext, ((hgrows.trans hgrows₂).get_eq hj).trans htext⟩
  case appended => rw [htable, StringTable.toList_add]
  case again => rw [(ht₂.add s).fst_eq, StringTable.add_of_found hfound₂]
  case other =>
    rw [(ht₂.add s').fst_eq]
    exact StringTable.add_ne_of_ne hfound₂ hne
  case later =>
    -- what the index had before is what the table has had since
    have hij : i = j := by
      rw [hi, StringTable.add_of_found (ht.indexOf?_eq hj)]
    rw [(ht₂.addByIndex s).fst_eq, StringTable.add_of_found hfound₂, hij]

/-- A string that a table comes with twice keeps its last index, and is not appended again. -/
example : let t := (ofTable ⟨#["x", "y", "x"]⟩).addAll ["z"]
    (t.add "x").1 = 2 ∧ (t.add "z").1 = 3 ∧ (t.add "x").2.table.size = 4 := by decide

end IndexedTable

end LockOrder

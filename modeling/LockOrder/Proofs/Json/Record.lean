import LockOrder.Proofs.Json.Form
import Mathlib.Data.List.Nodup

/-!
# Reading records

The fields of a record are read one after another into a draft. What the draft holds depends only on
which fields were read, not on their order, so the members of an object may come in any order and
among any others. A field that comes again is refused at once, and one that never comes is missed
at the end.

## Main definitions

* `Json.Field.Fills` — reading a field adds it to the draft
* `Json.Assembles` — a record is complete once all its fields were read

## Main results

* `Json.members_fresh`, `Json.members_repeated` — the members of an object
* `Json.positions_parts` — the values in an array
* `Json.Assembles.accepts_record` — records
-/

namespace LockOrder.Json

open Text (octets)

variable {α σ : Type} {a : α} {m : UInt8} {text gap gap' rest marks : List UInt8}
  {cut : Option Cut} {slip? : Option Slip} {names seen : List String} {draft : List String → σ}
  {fields : List (Field σ)} {forms : List (String × Form)} {form : String × Form} {name : String}

/-- Reading a field from its form adds it to the fields that the draft holds. -/
structure Field.Fills (field : Field σ) (draft : List String → σ) (form : String × Form) :
    Prop where
  /-- The field has the name of the form. -/
  name_eq : field.name = form.1
  /-- The draft knows whether it holds the field. -/
  present_eq : ∀ seen, field.present (draft seen) = decide (form.1 ∈ seen)
  /-- The field is added. -/
  accepts : ∀ seen, Accepts (field.read (draft seen)) form.2 (draft (form.1 :: seen))

/-- A record is read from its fields by way of a draft. -/
structure Assembles (r : Record σ α) (draft : List String → σ) (forms : List (String × Form))
    (a : α) : Prop where
  /-- No two fields have the same name. -/
  nodup : (forms.map Prod.fst).Nodup
  /-- The draft holds nothing at first. -/
  start_eq : r.start = draft []
  /-- Each field is read from its form. -/
  fills : List.Forall₂ (fun field form => field.Fills draft form) r.fields forms
  /-- A draft that holds all fields is complete. -/
  finish_eq : ∀ seen, (∀ form ∈ forms, form.1 ∈ seen) → r.finish (draft seen) = some a

/-- What a draft holds of a field: its value, once it was read. -/
def held {β : Type} (seen : List String) (name : String) (b : β) : Option β :=
  if name ∈ seen then some b else none

theorem isSome_held {β : Type} (b : β) : (held seen name b).isSome = decide (name ∈ seen) := by
  by_cases h : name ∈ seen <;> simp [held, h]

theorem held_of_mem {β : Type} (h : name ∈ seen) (b : β) : held seen name b = some b := if_pos h

@[simp]
theorem held_cons_self {β : Type} (b : β) : held (name :: seen) name b = some b :=
  held_of_mem List.mem_cons_self b

@[simp]
theorem held_cons_of_ne {β : Type} {other : String} (h : name ≠ other) (b : β) :
    held (other :: seen) name b = held seen name b := by
  simp [held, h]

/-- A field that is read on its own and then put into the draft. -/
theorem Field.Fills.of_accepts {β : Type} {item : Reader β} {b : β} {value : Form}
    {present : σ → Bool} {put : σ → β → σ} (h : Accepts item value b)
    (hpresent : ∀ seen, present (draft seen) = decide (name ∈ seen))
    (hput : ∀ seen, put (draft seen) b = draft (name :: seen)) :
    Field.Fills ⟨name, present, fun s => do return put s (← item)⟩ draft (name, value) where
  name_eq := rfl
  present_eq := hpresent
  accepts seen := hput seen ▸ h.map (put (draft seen))

/-! ### Fields by name -/

theorem exists_find?_name
    (h : List.Forall₂ (fun field form => Field.Fills field draft form) fields forms)
    (hnodup : (forms.map Prod.fst).Nodup) (hform : form ∈ forms) :
    ∃ field, fields.find? (fun field => field.name = form.1) = some field ∧
      field.Fills draft form := by
  induction h with
  | nil => exact absurd hform List.not_mem_nil
  | @cons field head fields forms hfield _ ih =>
    rw [List.map_cons, List.nodup_cons] at hnodup
    rcases List.mem_cons.mp hform with rfl | hform
    · exact ⟨field, List.find?_cons_of_pos (by simp [hfield.name_eq]), hfield⟩
    · have hne : head.1 ≠ form.1 := by
        intro heq
        rw [heq] at hnodup
        exact hnodup.1 (List.mem_map_of_mem hform)
      obtain ⟨found, hfind, hfound⟩ := ih hnodup.2 hform
      refine ⟨found, ?_, hfound⟩
      rw [List.find?_cons_of_neg (by simp [hfield.name_eq, hne]), hfind]

theorem find?_name_eq_none
    (h : List.Forall₂ (fun field form => Field.Fills field draft form) fields forms)
    (hname : name ∉ forms.map Prod.fst) :
    fields.find? (fun field => field.name = name) = none := by
  induction h with
  | nil => rfl
  | @cons field head fields forms hfield _ ih =>
    rw [List.map_cons, List.mem_cons, not_or] at hname
    rw [List.find?_cons_of_neg (by simp [hfield.name_eq, Ne.symm hname.1]), ih hname.2]

/-! ### Members -/

theorem colon_gap (hgap : Gap gap) : colon ⟨gap ++ 0x3A :: rest, cut⟩ = .ok ((), ⟨rest, cut⟩) := by
  rw [colon, bind_of_eq_ok (skipBlanksTo_gap hgap (by decide)), if_pos rfl, advance_cons]

theorem closeObject_cons : closeObject ⟨0x7D :: rest, cut⟩ = .ok ((), ⟨rest, cut⟩) := by
  rw [closeObject, bind_of_eq_ok (skipBlanksTo_cons (by decide)), if_pos rfl, advance_cons]

theorem moreMembers_close (hgap : Gap gap) (first : Bool) :
    moreMembers first ⟨gap ++ 0x7D :: rest, cut⟩ = .ok (false, ⟨0x7D :: rest, cut⟩) := by
  rw [moreMembers, bind_of_eq_ok (skipBlanksTo_gap hgap (by decide)), if_pos rfl, run_pure]

theorem moreMembers_key (hgap : Gap gap) (hgap' : Gap gap') (first : Bool) :
    moreMembers first ⟨gap ++ ((if first then [] else [0x2C]) ++ (gap' ++ 0x22 :: rest)), cut⟩ =
      .ok (true, ⟨0x22 :: rest, cut⟩) := by
  cases first with
  | true =>
    rw [if_pos rfl, List.nil_append, ← List.append_assoc, moreMembers,
      bind_of_eq_ok (skipBlanksTo_gap (hgap.append hgap') (by decide)), if_neg (by decide),
      if_pos rfl, if_pos rfl, run_pure]
  | false =>
    rw [if_neg (by decide), List.singleton_append, moreMembers,
      bind_of_eq_ok (skipBlanksTo_gap hgap (by decide)), if_neg (by decide), if_neg (by decide),
      if_pos rfl, bind_of_eq_ok advance_cons,
      bind_of_eq_ok (skipBlanksTo_gap hgap' (by decide)), if_pos rfl, run_pure]

/-- The key of a member is taken off. -/
theorem members_key {key : List UInt8} (hkey : Quoted name key) (hgap : Gap gap) (hgap' : Gap gap')
    (first : Bool) (s : σ) :
    members fields (m :: marks) first s
        ⟨gap ++ ((if first then [] else [0x2C]) ++ (gap' ++ (key ++ rest))), cut⟩ =
      (member fields name s >>= members fields marks false) ⟨rest, cut⟩ := by
  obtain ⟨body, hbody, rfl⟩ := hkey
  rw [List.cons_append, List.append_assoc, List.singleton_append, members,
    bind_of_eq_ok (moreMembers_key hgap hgap' first), if_pos rfl, bind_of_eq_ok advance_cons,
    bind_of_eq_ok (stringBody_of_spells hbody)]

section Step

variable (hfills : List.Forall₂ (fun field form => Field.Fills field draft form) fields forms)
  (hnodup : (forms.map Prod.fst).Nodup)

include hfills

/-- A member that is no field is passed over. -/
theorem members_other (hother : Padded (Form.entry (forms.map Prod.fst) none slip?) text)
    (hgap : Gap gap) (hrest : Feed.Stops ⟨rest, cut⟩) (first : Bool) (s : σ) (m : UInt8)
    (marks : List UInt8) :
    slip? = none ∧ ∃ after, Gap after ∧
      members fields (m :: marks) first s
          ⟨gap ++ ((if first then [] else [0x2C]) ++ (text ++ rest)), cut⟩ =
        members fields marks false s ⟨after ++ rest, cut⟩ := by
  obtain ⟨before, _, after, hbefore, hcore, hafter, rfl⟩ := hother
  obtain ⟨name, hname, key, gap₁, gap₂, value, hkey, hgap₁, hgap₂, ⟨rfl, hvalue⟩, rfl⟩ := hcore
  have hskips : SkipsGaps skipValue := skipsGaps_skipStart.bind _
  have hmember : member fields name s
      ⟨gap₁ ++ 0x3A :: (gap₂ ++ (value ++ (after ++ rest))), cut⟩ =
        .ok (s, ⟨after ++ rest, cut⟩) := by
    have hskip := hvalue.skipValue (hafter.stops hrest)
    rw [member, find?_name_eq_none hfills hname]
    change (colon >>= fun _ => _) _ = _
    rw [bind_of_eq_ok (colon_gap hgap₁), (hskips.bind _) gap₂ _ cut hgap₂, bind_of_eq_ok hskip,
      run_pure]
  refine ⟨rfl, after, hafter, ?_⟩
  simp only [List.append_assoc, List.cons_append]
  rw [members_key hkey hgap hbefore, bind_of_eq_ok hmember]

include hnodup

/-- A field that was not read before is added to the draft. -/
theorem members_field (hform : form ∈ forms) (hnew : form.1 ∉ seen)
    (hfield : Padded (Form.entry names (some form) slip?) text) (hgap : Gap gap)
    (hrest : Feed.Stops ⟨rest, cut⟩) (first : Bool) (m : UInt8) (marks : List UInt8) :
    ∃ after, Gap after ∧
      members fields (m :: marks) first (draft seen)
          ⟨gap ++ ((if first then [] else [0x2C]) ++ (text ++ rest)), cut⟩ =
        (verdict slip? (draft (form.1 :: seen), (⟨after ++ rest, cut⟩ : Feed))).bind
          fun r => members fields marks false r.1 r.2 := by
  obtain ⟨before, _, after, hbefore, hcore, hafter, rfl⟩ := hfield
  obtain ⟨key, gap₁, gap₂, value, hkey, hgap₁, hgap₂, hvalue, rfl⟩ := hcore
  obtain ⟨field, hfind, hfill⟩ := exists_find?_name hfills hnodup hform
  have hmember : member fields form.1 (draft seen)
      ⟨gap₁ ++ 0x3A :: (gap₂ ++ (value ++ (after ++ rest))), cut⟩ =
        verdict slip? (draft (form.1 :: seen), ⟨after ++ rest, cut⟩) := by
    have haccepts := hfill.accepts seen
    rw [member, hfind]
    change (if field.present (draft seen) = true then _ else _ : Reader σ) _ = _
    rw [hfill.present_eq, if_neg (by simpa using hnew), bind_of_eq_ok (colon_gap hgap₁),
      haccepts.skips gap₂ _ cut hgap₂]
    exact haccepts.responds hvalue _ cut (hafter.stops hrest)
  refine ⟨after, hafter, ?_⟩
  simp only [List.append_assoc, List.cons_append]
  rw [members_key hkey hgap hbefore, run_bind, hmember]

/-- A field that comes again is refused. -/
theorem members_again (hform : form ∈ forms) (hold : form.1 ∈ seen)
    (hfield : Padded (Form.entry names (some form) slip?) text) (hgap : Gap gap) (first : Bool)
    (m : UInt8) (marks : List UInt8) :
    members fields (m :: marks) first (draft seen)
        ⟨gap ++ ((if first then [] else [0x2C]) ++ (text ++ rest)), cut⟩ =
      .error (.duplicate form.1) := by
  obtain ⟨before, _, after, hbefore, hcore, hafter, rfl⟩ := hfield
  obtain ⟨key, gap₁, gap₂, value, hkey, -, -, -, rfl⟩ := hcore
  obtain ⟨field, hfind, hfill⟩ := exists_find?_name hfills hnodup hform
  have hmember (feed : Feed) :
      member fields form.1 (draft seen) feed = .error (.duplicate form.1) := by
    rw [member, hfind]
    change (if field.present (draft seen) = true then _ else _ : Reader σ) _ = _
    rw [hfill.present_eq, if_pos (by simpa using hold)]
    rfl
  simp only [List.append_assoc]
  rw [members_key hkey hgap hbefore, bind_of_eq_error (hmember _)]

/-- Members with different names are read up to the first slip. -/
theorem members_fresh {order : List (Option (String × Form))}
    {parts : List (Option Slip × List UInt8)}
    (hparts : List.Forall₂
      (fun entry part => Padded (Form.entry (forms.map Prod.fst) entry part.1) part.2) order parts)
    (hforms : order.reduceOption ⊆ forms)
    (hfresh : (order.reduceOption.map Prod.fst ++ seen).Nodup)
    (hgap : Gap gap) (hgap' : Gap gap') (hmarks : parts.length < marks.length) (first : Bool)
    (rest : List UInt8) (cut : Option Cut) :
    members fields marks first (draft seen)
        ⟨gap ++ (separated first (parts.map Prod.snd) ++ (gap' ++ 0x7D :: rest)), cut⟩ =
      verdict (parts.findSome? Prod.fst)
        (draft ((order.reduceOption.map Prod.fst).reverse ++ seen), ⟨0x7D :: rest, cut⟩) := by
  induction hparts generalizing marks first seen gap with
  | nil =>
    obtain ⟨m, marks, rfl⟩ := List.exists_cons_of_length_pos (Nat.zero_lt_of_lt hmarks)
    rw [members, List.map_nil, separated, List.nil_append, ← List.append_assoc,
      bind_of_eq_ok (moreMembers_close (hgap.append hgap') first)]
    rfl
  | @cons entry part order parts hpart _ ih =>
    obtain ⟨m, marks, rfl⟩ := List.exists_cons_of_length_pos (Nat.zero_lt_of_lt hmarks)
    have hmarks' := Nat.lt_of_succ_lt_succ hmarks
    have hstops := stops_in_brackets .object gap_nil (parts.map Prod.snd) hgap' rest cut
    obtain ⟨slip?, text⟩ := part
    simp only [List.map_cons, separated, List.append_assoc]
    cases entry with
    | none =>
      obtain ⟨rfl, after, hafter, hstep⟩ :=
        members_other hfills hpart hgap hstops first (draft seen) m marks
      exact hstep.trans (ih hforms hfresh hafter hmarks' false)
    | some form =>
      rw [List.reduceOption_cons_of_some, List.cons_subset] at hforms
      -- the name moves from those to come to those that were seen
      have hfresh' : (order.reduceOption.map Prod.fst ++ form.1 :: seen).Nodup :=
        List.perm_middle.nodup_iff.mpr hfresh
      have hnew : form.1 ∉ seen := (List.nodup_cons.mp hfresh'.of_append_right).1
      obtain ⟨after, hafter, hstep⟩ :=
        members_field hfills hnodup hforms.1 hnew hpart hgap hstops first m marks
      refine hstep.trans ?_
      -- a slip in the value ends the reading
      cases slip? with
      | none =>
        refine (ih hforms.2 hfresh' hafter hmarks' false).trans ?_
        rw [List.reduceOption_cons_of_some, List.map_cons, List.reverse_cons, List.append_assoc]
        rfl
      | some slip => rfl

/-- If a name comes twice, the field of such a name is refused. -/
theorem members_repeated {order : List (Option (String × Form))}
    {parts : List (Option Slip × List UInt8)}
    (hparts : List.Forall₂
      (fun entry part => Padded (Form.entry (forms.map Prod.fst) entry part.1) part.2) order parts)
    (hslips : ∀ part ∈ parts, part.1 = none) (hforms : order.reduceOption ⊆ forms)
    (hseen : seen.Nodup) (hrepeated : ¬ (order.reduceOption.map Prod.fst ++ seen).Nodup)
    (hgap : Gap gap) (hgap' : Gap gap') (hmarks : parts.length < marks.length) (first : Bool)
    (rest : List UInt8) (cut : Option Cut) :
    ∃ name, 2 ≤ (order.reduceOption.map Prod.fst ++ seen).count name ∧
      members fields marks first (draft seen)
          ⟨gap ++ (separated first (parts.map Prod.snd) ++ (gap' ++ 0x7D :: rest)), cut⟩ =
        .error (.duplicate name) := by
  induction hparts generalizing marks first seen gap with
  | nil => exact absurd hseen hrepeated
  | @cons entry part order parts hpart _ ih =>
    obtain ⟨m, marks, rfl⟩ := List.exists_cons_of_length_pos (Nat.zero_lt_of_lt hmarks)
    have hmarks' := Nat.lt_of_succ_lt_succ hmarks
    have hstops := stops_in_brackets .object gap_nil (parts.map Prod.snd) hgap' rest cut
    obtain ⟨slip?, text⟩ := part
    rw [List.forall_mem_cons] at hslips
    simp only [List.map_cons, separated, List.append_assoc]
    cases entry with
    | none =>
      obtain ⟨rfl, after, hafter, hstep⟩ :=
        members_other hfills hpart hgap hstops first (draft seen) m marks
      obtain ⟨name, hcount, hmore⟩ :=
        ih hslips.2 hforms hseen hrepeated hafter hmarks' false
      exact ⟨name, hcount, hstep.trans hmore⟩
    | some form =>
      rw [List.reduceOption_cons_of_some, List.cons_subset] at hforms
      rw [List.reduceOption_cons_of_some, List.map_cons, List.cons_append] at hrepeated ⊢
      -- either this is the member that comes again, or the repetition is still to come
      by_cases hold : form.1 ∈ seen
      · refine ⟨form.1, ?_, members_again hfills hnodup hforms.1 hold hpart hgap first m marks⟩
        rw [List.count_cons_self]
        exact Nat.succ_le_succ (List.count_pos_iff.mpr (List.mem_append_right _ hold))
      · have hmiddle : (order.reduceOption.map Prod.fst ++ form.1 :: seen).Perm
            (form.1 :: (order.reduceOption.map Prod.fst ++ seen)) := List.perm_middle
        obtain ⟨after, hafter, hstep⟩ :=
          members_field hfills hnodup hforms.1 hold hpart hgap hstops first m marks
        obtain ⟨name, hcount, hmore⟩ := ih hslips.2 hforms.2 (List.nodup_cons.mpr ⟨hold, hseen⟩)
          (fun h => hrepeated (hmiddle.nodup_iff.mp h)) hafter hmarks' false
        rw [hmiddle.count_eq] at hcount
        refine ⟨name, hcount, hstep.trans ?_⟩
        obtain rfl : slip? = none := hslips.1
        exact hmore

end Step

/-! ### Values in order -/

/-- The values of an array are read into the fields in order, up to the first slip. -/
theorem positions_parts {parts : List (Option Slip × List UInt8)}
    (hfills : List.Forall₂ (fun field form => Field.Fills field draft form) fields forms)
    (hparts : List.Forall₂ (fun form part => Padded (form.2 part.1) part.2) forms parts)
    (hgap : Gap gap) (hgap' : Gap gap') (expected : String) (position : Nat) (seen : List String)
    (rest : List UInt8) (cut : Option Cut) :
    ∃ after, Gap after ∧
      positions expected fields position (draft seen)
          ⟨gap ++ (separated (position = 0) (parts.map Prod.snd) ++ (gap' ++ 0x5D :: rest)), cut⟩ =
        verdict (parts.findSome? Prod.fst)
          (draft ((forms.map Prod.fst).reverse ++ seen), ⟨after ++ 0x5D :: rest, cut⟩) := by
  induction hfills generalizing parts position seen gap with
  | nil =>
    cases hparts
    refine ⟨gap ++ gap', hgap.append hgap', ?_⟩
    rw [List.append_assoc]
    rfl
  | @cons field form fields forms hfield _ ih =>
    cases hparts with
    | @cons _ part _ parts hpart hparts =>
      obtain ⟨slip?, _⟩ := part
      obtain ⟨before, core, after, hbefore, hcore, hafter, rfl⟩ := hpart
      have haccepts := hfield.accepts seen
      have hread := haccepts.responds hcore _ cut
        (stops_in_brackets .list hafter (parts.map Prod.snd) hgap' rest cut)
      -- only the first value has no comma before it
      obtain ⟨last, hlast, hmore⟩ := ih hparts hafter (position + 1) (form.1 :: seen)
      rw [decide_eq_false (Nat.succ_ne_zero position)] at hmore
      refine ⟨last, hlast, ?_⟩
      simp only [List.map_cons, separated, List.append_assoc]
      rw [positions, bind_of_eq_ok (moreElements_item (haccepts.opens hcore) hgap hbefore _),
        if_pos rfl]
      cases slip? with
      | none =>
        rw [List.reverse_cons, List.append_assoc]
        exact (bind_of_eq_ok hread _).trans hmore
      | some slip => exact bind_of_eq_error hread _

/-! ### Records -/

-- The first field that the draft lacks is the first form whose name was not seen.
theorem find?_absent
    (h : List.Forall₂ (fun field form => Field.Fills field draft form) fields forms)
    (seen : List String) :
    (fields.find? fun field => !field.present (draft seen)).map Field.name =
      (forms.find? fun form => form.1 ∉ seen).map Prod.fst := by
  induction h with
  | nil => rfl
  | @cons field form fields forms hfield _ ih =>
    by_cases hseen : form.1 ∈ seen
    · rw [List.find?_cons_of_neg (by simp [hfield.present_eq, hseen]),
        List.find?_cons_of_neg (by simp [hseen]), ih]
    · rw [List.find?_cons_of_pos (by simp [hfield.present_eq, hseen]),
        List.find?_cons_of_pos (by simp [hseen]), Option.map_some, Option.map_some, hfield.name_eq]

section Object

variable {r : Record σ α} {s : σ} {content : List UInt8} {flaw : Flaw}

theorem record_complete
    (hmembers : members r.fields content true r.start ⟨content, cut⟩ =
      verdict slip? (s, ⟨0x7D :: rest, cut⟩))
    (hall : (r.fields.find? fun field => !field.present s) = none) (hfinish : r.finish s = some a) :
    record r ⟨0x7B :: content, cut⟩ = verdict slip? (a, ⟨rest, cut⟩) := by
  rw [record, bind_of_eq_ok (skipBlanksTo_cons (by decide))]
  change (advance >>= fun _ => _) _ = _
  rw [bind_of_eq_ok advance_cons, bind_of_eq_ok (ruler_eq _)]
  refine bind_of_eq_verdict hmembers ?_
  simp only [hall, hfinish]
  rw [bind_of_eq_ok closeObject_cons, run_pure]

theorem record_missing {field : Field σ} {feed : Feed}
    (hmembers : members r.fields content true r.start ⟨content, cut⟩ = .ok (s, feed))
    (hfind : (r.fields.find? fun field => !field.present s) = some field) :
    record r ⟨0x7B :: content, cut⟩ = .error (.missing field.name) := by
  rw [record, bind_of_eq_ok (skipBlanksTo_cons (by decide))]
  change (advance >>= fun _ => _) _ = _
  rw [bind_of_eq_ok advance_cons, bind_of_eq_ok (ruler_eq _), bind_of_eq_ok hmembers, hfind]
  rfl

theorem record_refused
    (hmembers : members r.fields content true r.start ⟨content, cut⟩ = .error flaw) :
    record r ⟨0x7B :: content, cut⟩ = .error flaw := by
  rw [record, bind_of_eq_ok (skipBlanksTo_cons (by decide))]
  change (advance >>= fun _ => _) _ = _
  rw [bind_of_eq_ok advance_cons, bind_of_eq_ok (ruler_eq _), bind_of_eq_error hmembers]

end Object

theorem Form.member.ne_nil {value : Form} (h : Form.member name value slip? text) : text ≠ [] := by
  obtain ⟨_, _, _, _, ⟨body, _, rfl⟩, _, _, _, rfl⟩ := h
  exact List.cons_ne_nil _ _

theorem Form.entry.ne_nil {entry : Option (String × Form)}
    (h : Form.entry names entry slip? text) : text ≠ [] := by
  cases entry with
  | none =>
    obtain ⟨_, _, h⟩ := h
    exact h.ne_nil
  | some field => exact Form.member.ne_nil h

namespace Assembles

variable {r : Record σ α} (h : Assembles r draft forms a)

include h

/-- What the members of an object come to, whatever fields they are. -/
theorem members_eq {order : List (Option (String × Form))}
    {parts : List (Option Slip × List UInt8)}
    (hparts : List.Forall₂
      (fun entry part => Padded (Form.entry (forms.map Prod.fst) entry part.1) part.2) order parts)
    (hforms : order.reduceOption ⊆ forms) (hfresh : (order.reduceOption.map Prod.fst).Nodup)
    (hgap : Gap gap) (rest : List UInt8) (cut : Option Cut) :
    let content := separated true (parts.map Prod.snd) ++ (gap ++ 0x7D :: rest)
    members r.fields content true r.start ⟨content, cut⟩ =
      verdict (parts.findSome? Prod.fst)
        (draft (order.reduceOption.map Prod.fst).reverse, ⟨0x7D :: rest, cut⟩) := by
  have hmarks := length_parts_lt hparts (fun _ _ _ _ => Form.entry.ne_nil) gap 0x7D rest
  have hfresh' : (order.reduceOption.map Prod.fst ++ []).Nodup := by rwa [List.append_nil]
  have hmembers := members_fresh h.fills h.nodup hparts hforms hfresh' gap_nil hgap hmarks true
    rest cut
  rw [List.append_nil, ← h.start_eq] at hmembers
  exact hmembers

/-- An object with all fields is read, in whatever order they come. -/
theorem responds_object (htext : Form.object (forms.map Prod.fst) forms slip? text)
    (rest : List UInt8) (cut : Option Cut) :
    record r ⟨text ++ rest, cut⟩ = verdict slip? (a, ⟨rest, cut⟩) := by
  obtain ⟨order, hperm, parts, gap, hparts, hgap, rfl, rfl⟩ := htext
  rw [List.forall₂_map_left_iff] at hparts
  have hnames := hperm.map Prod.fst
  have hseen : ∀ form ∈ forms, form.1 ∈ (order.reduceOption.map Prod.fst).reverse :=
    fun form hform => List.mem_reverse.mpr (hnames.mem_iff.mpr (List.mem_map_of_mem hform))
  have hall : (r.fields.find? fun field =>
      !field.present (draft (order.reduceOption.map Prod.fst).reverse)) = none := by
    rw [← Option.map_eq_none_iff, find?_absent h.fills, Option.map_eq_none_iff, List.find?_eq_none]
    exact fun form hform => by simpa using hseen form hform
  have hmembers := h.members_eq hparts hperm.subset (hnames.nodup_iff.mpr h.nodup) hgap rest cut
  rw [Bracket.enclose_append]
  exact record_complete hmembers hall (h.finish_eq _ hseen)

/-- An object that lacks one field is refused for it. -/
theorem responds_missing {before after : List (String × Form)}
    (hforms : forms = before ++ form :: after)
    (htext : Form.object (forms.map Prod.fst) (before ++ after) none text) (rest : List UInt8)
    (cut : Option Cut) : record r ⟨text ++ rest, cut⟩ = .error (.missing form.1) := by
  obtain ⟨order, hperm, parts, gap, hparts, hgap, hslips, rfl⟩ := htext
  rw [List.forall₂_map_left_iff] at hparts
  have hnames := hperm.map Prod.fst
  have hnodup : (form.1 :: (before ++ after).map Prod.fst).Nodup := by
    have hmiddle : forms.Perm (form :: (before ++ after)) := hforms ▸ List.perm_middle
    exact (hmiddle.map Prod.fst).nodup_iff.mp h.nodup
  rw [List.nodup_cons] at hnodup
  have hsubset : order.reduceOption ⊆ forms := by
    rw [hforms]
    exact fun _ hmem => List.perm_middle.symm.subset
      (List.mem_cons_of_mem form (hperm.subset hmem))
  have hmembers := h.members_eq hparts hsubset (hnames.nodup_iff.mpr hnodup.2) hgap rest cut
  rw [← hslips, verdict_none] at hmembers
  -- of all fields only the one that was left out is not in the draft
  have hfind : (forms.find? fun form =>
      form.1 ∉ (order.reduceOption.map Prod.fst).reverse) = some form := by
    rw [List.find?_eq_some_iff_append]
    refine ⟨?_, before, after, hforms, fun other hother => ?_⟩
    · simpa [hnames.mem_iff] using hnodup.1
    · have hmem := List.mem_map_of_mem (f := Prod.fst) (List.mem_append_left after hother)
      simpa using hnames.mem_iff.mpr hmem
  have habsent := find?_absent h.fills (order.reduceOption.map Prod.fst).reverse
  rw [hfind, Option.map_some, Option.map_eq_some_iff] at habsent
  obtain ⟨field, hfield, hname⟩ := habsent
  rw [Bracket.enclose_append, ← hname]
  exact record_missing hmembers hfield

/-- An object that has one field twice is refused for it. -/
theorem responds_duplicate (hform : form ∈ forms)
    (htext : Form.object (forms.map Prod.fst) (form :: forms) none text) (rest : List UInt8)
    (cut : Option Cut) : record r ⟨text ++ rest, cut⟩ = .error (.duplicate form.1) := by
  obtain ⟨order, hperm, parts, gap, hparts, hgap, hslips, rfl⟩ := htext
  rw [List.forall₂_map_left_iff] at hparts
  have hnames : (order.reduceOption.map Prod.fst ++ []).Perm (form.1 :: forms.map Prod.fst) := by
    rw [List.append_nil]
    exact hperm.map Prod.fst
  have hrepeated : ¬ (order.reduceOption.map Prod.fst ++ []).Nodup := fun hnodup =>
    (List.nodup_cons.mp (hnames.nodup_iff.mp hnodup)).1 (List.mem_map_of_mem hform)
  have hsubset : order.reduceOption ⊆ forms := fun _ hmem =>
    (List.mem_cons.mp (hperm.subset hmem)).elim (fun heq => heq ▸ hform) id
  have hmarks := length_parts_lt hparts (fun _ _ _ _ => Form.entry.ne_nil) gap 0x7D rest
  obtain ⟨name, hcount, hmembers⟩ := members_repeated h.fills h.nodup hparts
    (List.findSome?_eq_none_iff.mp hslips.symm) hsubset List.nodup_nil hrepeated gap_nil hgap hmarks
    true rest cut
  -- no other name comes twice
  obtain rfl : name = form.1 := by
    by_contra hne
    rw [hnames.count_eq, List.count_cons_of_ne (Ne.symm hne)] at hcount
    have hone := List.nodup_iff_count_le_one.mp h.nodup name
    omega
  rw [← h.start_eq] at hmembers
  rw [Bracket.enclose_append]
  exact record_refused hmembers

/-- An array of the values of all fields is read. -/
theorem responds_array (htext : Form.sequence .list (forms.map Prod.snd) slip? text)
    (rest : List UInt8) (cut : Option Cut) :
    record r ⟨text ++ rest, cut⟩ = verdict slip? (a, ⟨rest, cut⟩) := by
  obtain ⟨parts, gap, hparts, hgap, rfl, rfl⟩ := htext
  rw [List.forall₂_map_left_iff] at hparts
  obtain ⟨after, hafter, hpositions⟩ :=
    positions_parts h.fills hparts gap_nil hgap r.expectedLength 0 [] rest cut
  rw [List.append_nil, ← h.start_eq] at hpositions
  have hfinish := h.finish_eq (forms.map Prod.fst).reverse fun form hform =>
    List.mem_reverse.mpr (List.mem_map_of_mem hform)
  rw [Bracket.enclose_append, record, bind_of_eq_ok (skipBlanksTo_cons (by decide))]
  change (advance >>= fun _ => _) _ = _
  rw [bind_of_eq_ok advance_cons]
  refine bind_of_eq_verdict hpositions ?_
  simp only [hfinish]
  rw [bind_of_eq_ok (closeList_gap hafter), run_pure]

/-- A record is read from every form it has, and the first slip is found. -/
theorem accepts_record : Accepts (record r) (.record forms) a where
  skips := skipsGaps_skipBlanksTo.bind _
  opens htext := by
    obtain ⟨bracket, tail, rfl⟩ := htext.exists_cons
    exact ⟨_, tail, rfl, isStop_opening bracket⟩
  responds htext rest cut _ := by
    cases htext with
    | object htext => exact h.responds_object htext rest cut
    | array htext => exact h.responds_array htext rest cut
    | missing hforms htext => exact h.responds_missing hforms htext rest cut
    | duplicate hform htext => exact h.responds_duplicate hform htext rest cut

end Assembles

theorem Form.member_quote {value : Form} (h : value slip? text) :
    Form.member name value slip? (octets (quote name) ++ 0x3A :: text) :=
  ⟨octets (quote name), [], [], text, Json.quoted_quote name, gap_nil, gap_nil, h, rfl⟩

/-- A member that is written without white space is one of its forms. -/
theorem Form.member_memberText {value : Form} {written : String}
    (h : value none (octets written)) :
    Form.member name value none (octets (memberText name written)) := by
  have hcolon : octets ":" = [0x3A] := Text.octets_ofList [':']
  rw [memberText, Text.octets_append, Text.octets_append, hcolon, List.append_assoc]
  exact Form.member_quote h

/-- An object that is written without white space is one of the forms of a record. -/
theorem Form.record_object {members : List (String × String)}
    (h : List.Forall₂ (fun member form => member.1 = form.1 ∧ form.2 none (octets member.2))
      members forms) :
    Form.record forms none (octets (Json.object members)) := by
  have hopen : octets "\x7b" = [0x7B] := Text.octets_ofList ['\x7b']
  have hcomma : octets "," = [0x2C] := Text.octets_ofList [',']
  have hclose : octets "\x7d" = [0x7D] := Text.octets_ofList ['\x7d']
  have horder : (forms.map some).reduceOption = forms := by
    rw [List.reduceOption, List.filterMap_map]
    exact List.filterMap_some
  have hwritten : octets (Json.object members) =
      Bracket.enclose .object (members.map fun m => octets (memberText m.1 m.2)) [] := by
    rw [Json.object, Text.octets_append, Text.octets_append, Text.octets_intercalate, hopen, hcomma,
      hclose, Bracket.enclose, separated_true, List.map_map, List.append_assoc]
    rfl
  refine .object ⟨forms.map some, .of_eq horder, ?_⟩
  rw [hwritten, List.map_map]
  apply Form.sequence_enclose
  rw [List.forall₂_map_left_iff, List.forall₂_map_right_iff]
  refine h.flip.imp ?_
  rintro ⟨name, value⟩ member ⟨rfl, hvalue⟩
  exact Form.member_memberText hvalue

end LockOrder.Json

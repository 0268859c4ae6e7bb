import LockOrder.Proofs.Json.Form
import LockOrder.Proofs.Outcome

/-!
# What a text stands for

Every JSON text stands for a datum: null, a truth value, a number, a string, an array or an object.
A reader asks for a value of one shape, so it takes some data for a value and refuses the others.
Which ones it takes does not depend on how a datum is written, on the white space between tokens or
on the characters of a string that are escaped. Numbers are kept with their digits, as readers tell
`1`, `1.0` and `1e0` apart.

## Main definitions

* `Json.Datum`, `Json.Datum.Written` — what a text stands for
* `Json.Judged`, `Json.Judges` — a reader takes a datum for a value, or refuses it
* `Json.Datum.below?`, `Json.Datum.listOf?` — whole numbers below a bound, and arrays

## Main results

* `Json.Datum.Written.value` — what stands for a datum can be passed over
* `Json.Datum.written_list_iff` — how an array is written
* `Json.judges_natural`, `Json.Judges.listOf` — the readers of whole numbers and of arrays
* `Json.Judges.decodeFeed` — whole texts
-/

namespace LockOrder.Json

open Text (octets)

/-! ### Data and their texts -/

/-- What a text stands for. -/
inductive Datum where
  /-- The null value. -/
  | null
  /-- A truth value. -/
  | boolean (b : Bool)
  /-- A number by its sign and its digits. -/
  | number (negative : Bool) (n : Numeral)
  /-- A string. -/
  | text (s : String)
  /-- An array. -/
  | list (items : List Datum)
  /-- An object. Its members are kept in order, and a key may come again. -/
  | object (members : List (String × Datum))

/-- A key and a colon, with white space around them. -/
def Key (name : String) (text : List UInt8) : Prop :=
  ∃ before body after gap, Gap before ∧ Spells body (octets name) ∧ Gap after ∧ Gap gap ∧
    text = before ++ 0x22 :: (body ++ 0x22 :: (after ++ 0x3A :: gap))

/-- The word for a truth value. -/
def truthWord : Bool → List UInt8
  | true => [0x74, 0x72, 0x75, 0x65]
  | false => [0x66, 0x61, 0x6C, 0x73, 0x65]

/-- A text stands for a datum. -/
inductive Datum.Written : Datum → List UInt8 → Prop where
  | null : Written .null Json.null
  | boolean (b : Bool) : Written (.boolean b) (truthWord b)
  | number {n : Numeral} {text : List UInt8} (h : n.Written text) : Written (.number false n) text
  | negative {n : Numeral} {text : List UInt8} (h : n.Written text) :
      Written (.number true n) (0x2D :: text)
  | text {s : String} {text : List UInt8} (h : Quoted s text) : Written (.text s) text
  | list {items : List (Datum × Item)} {gap : List UInt8}
      (hbefore : ∀ item ∈ items, Gap item.2.lead)
      (hvalue : ∀ item ∈ items, Written item.1 item.2.value)
      (hafter : ∀ item ∈ items, Gap item.2.after) (hgap : Gap gap) :
      Written (.list (items.map Prod.fst))
        (Bracket.enclose .list (items.map fun item => item.2.octets) gap)
  | object {members : List ((String × Datum) × Item)} {gap : List UInt8}
      (hkey : ∀ member ∈ members, Key member.1.1 member.2.lead)
      (hvalue : ∀ member ∈ members, Written member.1.2 member.2.value)
      (hafter : ∀ member ∈ members, Gap member.2.after) (hgap : Gap gap) :
      Written (.object (members.map Prod.fst))
        (Bracket.enclose .object (members.map fun member => member.2.octets) gap)

variable {α β : Type} {datum : Datum} {b : UInt8} {text gap gap' rest marks : List UInt8}
  {cut : Option Cut} {feed : Feed} {n : Numeral}

/-- What spells a text may stand between quotes. -/
theorem Spells.body {body bytes : List UInt8} (h : Spells body bytes) : Body body := by
  induction h with
  | nil => exact .nil
  | plain hb _ ih => exact .plain hb ih
  | escape h _ ih =>
    cases h with
    | letter h => exact .letter h ih
    | code h _ => exact .code h ih
    | pair h h' _ _ =>
      rw [List.cons_append, List.append_assoc]
      exact .code h (.code h' ih)

/-- What stands for a datum is a value by its syntax. -/
theorem Datum.Written.value (h : datum.Written text) : Value text := by
  induction h with
  | null => exact .word (by decide)
  | boolean b => cases b <;> exact .word (by decide)
  | number h => exact .number h.numberText
  | negative h => exact .negative h.numberText
  | text h =>
    obtain ⟨body, hbody, rfl⟩ := h
    exact .string hbody.body
  | @list items gap hbefore _ hafter hgap ih =>
    have hvalue := @Value.nested .list (items.map Prod.snd) gap
      (List.forall_mem_map.mpr fun item hitem => .list (hbefore item hitem))
      (List.forall_mem_map.mpr ih) (List.forall_mem_map.mpr hafter) hgap
    rwa [List.map_map] at hvalue
  | @object members gap hkey _ hafter hgap ih =>
    have hlead : ∀ member ∈ members, Lead .object member.2.lead := by
      intro member hmember
      obtain ⟨before, body, after, gap, hbefore, hbody, hafter, hgap, heq⟩ := hkey member hmember
      rw [heq]
      exact .object hbefore hbody.body hafter hgap
    have hvalue := @Value.nested .object (members.map Prod.snd) gap
      (List.forall_mem_map.mpr hlead) (List.forall_mem_map.mpr ih) (List.forall_mem_map.mpr hafter)
      hgap
    rwa [List.map_map] at hvalue

/-- An array is written as its elements in brackets, with any white space around each of them. -/
theorem Datum.written_list_iff {items : List Datum} :
    (Datum.list items).Written text ↔ ∃ texts gap,
      List.Forall₂ (fun item text => Padded item.Written text) items texts ∧ Gap gap ∧
        text = Bracket.enclose .list texts gap := by
  constructor
  · intro h
    cases h with
    | @list items gap hbefore hvalue hafter hgap =>
      refine ⟨_, gap, ?_, hgap, rfl⟩
      rw [List.forall₂_map_left_iff, List.forall₂_map_right_iff, List.forall₂_same]
      intro item hitem
      exact ⟨_, _, _, hbefore item hitem, hvalue item hitem, hafter item hitem, rfl⟩
  · rintro ⟨texts, gap, htexts, hgap, rfl⟩
    obtain ⟨parts, rfl, rfl, hparts⟩ : ∃ parts : List (Datum × Item), parts.map Prod.fst = items ∧
        parts.map (fun part => part.2.octets) = texts ∧
        ∀ part ∈ parts, Gap part.2.lead ∧ part.1.Written part.2.value ∧ Gap part.2.after := by
      induction htexts with
      | nil => exact ⟨[], rfl, rfl, nofun⟩
      | @cons item _ _ _ hitem _ ih =>
        obtain ⟨before, core, after, hbefore, hcore, hafter, rfl⟩ := hitem
        obtain ⟨parts, rfl, rfl, hparts⟩ := ih
        exact ⟨(item, ⟨before, core, after⟩) :: parts, rfl, rfl,
          List.forall_mem_cons.mpr ⟨⟨hbefore, hcore, hafter⟩, hparts⟩⟩
    exact .list (fun part hpart => (hparts part hpart).1)
      (fun part hpart => (hparts part hpart).2.1) (fun part hpart => (hparts part hpart).2.2) hgap

/-- The first byte of a value tells its kind. -/
def Datum.StartsWith : Datum → UInt8 → Prop
  | .null, b => b = 0x6E
  | .boolean _, b => b = 0x74 ∨ b = 0x66
  | .number _ _, b => b = 0x2D ∨ isDigit b = true
  | .text _, b => b = 0x22
  | .list _, b => b = 0x5B
  | .object _, b => b = 0x7B

theorem Datum.Written.exists_cons (h : datum.Written text) :
    ∃ b tail, text = b :: tail ∧ isBlank b = false ∧ datum.StartsWith b := by
  have hstart : ∃ b tail, text = b :: tail ∧ datum.StartsWith b := by
    cases h with
    | null => exact ⟨_, _, rfl, rfl⟩
    | boolean b =>
      cases b with
      | true => exact ⟨_, _, rfl, .inl rfl⟩
      | false => exact ⟨_, _, rfl, .inr rfl⟩
    | number h =>
      obtain ⟨b, tail, rfl, hb⟩ := h.numberText.exists_cons
      exact ⟨b, tail, rfl, .inr hb⟩
    | negative h => exact ⟨_, _, rfl, .inl rfl⟩
    | text h =>
      obtain ⟨body, -, rfl⟩ := h
      exact ⟨_, _, rfl, rfl⟩
    | list => exact ⟨_, _, rfl, rfl⟩
    | object => exact ⟨_, _, rfl, rfl⟩
  obtain ⟨b, tail, rfl, hb⟩ := hstart
  obtain ⟨_, _, heq, hstop⟩ := h.value.exists_cons
  cases heq
  exact ⟨b, tail, rfl, isBlank_of_isStop_eq_false hstop, hb⟩

/-- Strings, arrays and numbers are told from all others by their first byte. -/
theorem Datum.StartsWith.kind (h : datum.StartsWith b) :
    (b = 0x22 ↔ ∃ s, datum = .text s) ∧ (b = 0x5B ↔ ∃ items, datum = .list items) ∧
      (b = 0x2D ∨ isDigit b = true ↔ ∃ negative n, datum = .number negative n) := by
  cases datum with
  | number negative n =>
    have hnumber : b = 0x2D ∨ isDigit b = true := h
    have hne : b ≠ 0x22 ∧ b ≠ 0x5B := by
      constructor
      all_goals
        rintro rfl
        exact absurd hnumber (by decide)
    simp [hne, hnumber]
  | boolean t => rcases h with rfl | rfl <;> simp [isDigit]
  | _ =>
    cases h
    simp [isDigit]

/-! ### Taking and refusing -/

/-- A flaw of the text itself, and not of the layers below it. -/
def Flaw.IsOwn : Flaw → Prop
  | .cut _ => False
  | _ => True

/-- What a reader makes of a text that stands for `a?`: it takes the value off and leaves what
follows, or it refuses the text for a flaw of its own. -/
def Judged (a? : Option α) (rest : Feed) (result : Except Flaw (α × Feed)) : Prop :=
  match a? with
  | some a => result = .ok (a, rest)
  | none => ∃ flaw, result = .error flaw ∧ flaw.IsOwn

theorem Judged.bind {a? : Option α} {f : α → Option β} {m : Reader α} {k : α → Reader β}
    {middle rest : Feed} (h : Judged a? middle (m feed))
    (hk : ∀ a, a? = some a → Judged (f a) rest (k a middle)) :
    Judged (a?.bind f) rest ((m >>= k) feed) := by
  cases a? with
  | some a =>
    rw [bind_of_eq_ok h]
    exact hk a rfl
  | none =>
    obtain ⟨flaw, hflaw, hown⟩ := h
    exact ⟨flaw, bind_of_eq_error hflaw k, hown⟩

/-- What is refused at the first step or at a later one is refused. -/
theorem Judged.refused {a? : Option α} {m : Reader α} {k : α → Reader β} {middle rest : Feed}
    (h : Judged a? middle (m feed))
    (hk : ∀ a, a? = some a → Judged (none : Option β) rest (k a middle)) :
    Judged (none : Option β) rest ((m >>= k) feed) := by
  have hbind := h.bind hk
  rwa [Option.bind_fun_none] at hbind

theorem Judged.map {a? : Option α} {f : α → β} {m : Reader α} {k : α → Reader β}
    {middle rest : Feed} (h : Judged a? middle (m feed))
    (hk : ∀ a, k a middle = .ok (f a, rest)) : Judged (a?.map f) rest ((m >>= k) feed) := by
  rw [Option.map_eq_bind]
  exact h.bind fun a _ => hk a

/-- A reader takes each datum for what `value?` says, and refuses it if that is nothing. -/
structure Judges (item : Reader α) (value? : Datum → Option α) : Prop where
  /-- White space in front makes no difference. -/
  skips : SkipsGaps item
  /-- The text is taken off and what follows is left, or the text is refused. -/
  judges : ∀ {datum text}, datum.Written text → ∀ feed : Feed, feed.Stops →
    Judged (value? datum) feed (item ⟨text ++ feed.bytes, feed.cut⟩)

theorem Judges.map {item : Reader α} {value? : Datum → Option α} (h : Judges item value?)
    (f : α → β) : Judges (do return f (← item)) fun datum => (value? datum).map f where
  skips := h.skips.bind _
  judges hdatum feed hfeed := (h.judges hdatum feed hfeed).map fun _ => rfl

/-! ### Numbers -/

theorem number_of_written (h : n.Written text) (negative : Bool) (hfeed : feed.Stops) :
    number negative ⟨text ++ feed.bytes, feed.cut⟩ =
      (n.value negative).elim (.error .syntaxError) fun found => .ok (found, feed) := by
  rw [number, bind_of_eq_ok (h.numeral hfeed)]
  cases n.value negative <;> rfl

/-- What starts with a minus sign or a digit is found to be a number. -/
theorem found_of_number {negative : Bool} (h : (Datum.number negative n).Written text)
    (hfeed : feed.Stops) : found ⟨text ++ feed.bytes, feed.cut⟩ =
      (n.value negative).elim (.error .syntaxError) fun found => .ok (found, feed) := by
  cases h with
  | number h =>
    rw [← number_of_written h false hfeed]
    obtain ⟨b, tail, rfl, hb⟩ := h.numberText.exists_cons
    exact found_of_isDigit hb _ _
  | negative h =>
    rw [← number_of_written h true hfeed, List.cons_append, found,
      bind_of_eq_ok (skipBlanksTo_cons (by decide))]
    rfl

/-- Something is found at every value, unless it is a number too large for a float. -/
theorem found_of_written (h : datum.Written text) (hfeed : feed.Stops) :
    (∃ found' feed', found ⟨text ++ feed.bytes, feed.cut⟩ = .ok (found', feed')) ∨
      found ⟨text ++ feed.bytes, feed.cut⟩ = .error .syntaxError := by
  cases datum with
  | number negative n =>
    rw [found_of_number h hfeed]
    cases n.value negative with
    | none => exact .inr rfl
    | some found' => exact .inl ⟨found', feed, rfl⟩
  | null =>
    cases h
    exact .inl ⟨_, _, rfl⟩
  | boolean b =>
    cases h
    cases b <;> exact .inl ⟨_, _, rfl⟩
  | list items =>
    cases h
    exact .inl ⟨_, _, rfl⟩
  | object members =>
    cases h
    exact .inl ⟨_, _, rfl⟩
  | text s =>
    cases h with
    | text h =>
      obtain ⟨body, hbody, rfl⟩ := h
      refine .inl ⟨.text s, feed, ?_⟩
      rw [List.cons_append, List.append_assoc, List.singleton_append, found,
        bind_of_eq_ok (skipBlanksTo_cons (by decide))]
      change (advance >>= fun _ => _) _ = _
      rw [bind_of_eq_ok advance_cons, bind_of_eq_ok (stringBody_of_spells hbody)]
      rfl

/-- A value of the wrong kind is refused. -/
theorem judged_unexpected (h : datum.Written text) (hfeed : feed.Stops) (expected : String)
    (rest : Feed) :
    Judged (none : Option α) rest (unexpected expected ⟨text ++ feed.bytes, feed.cut⟩) := by
  rcases found_of_written h hfeed with ⟨found', feed', hfound⟩ | hfound
  · exact ⟨_, bind_of_eq_ok hfound _, trivial⟩
  · exact ⟨_, bind_of_eq_error hfound _, trivial⟩

/-- A whole number below a bound, which is written without a sign, a fraction and an exponent. -/
def Datum.below? (bound : Nat) : Datum → Option Nat
  | .number false ⟨whole, [], none⟩ =>
    if ofDigits whole < bound then some (ofDigits whole) else none
  | _ => none

theorem Datum.below?_eq_some_iff {bound k : Nat} : datum.below? bound = some k ↔
    ∃ whole, datum = .number false ⟨whole, [], none⟩ ∧ ofDigits whole = k ∧ k < bound := by
  constructor
  · intro h
    unfold below? at h
    split at h
    · next whole =>
      split at h
      · next hlt =>
        obtain rfl := Option.some.inj h
        exact ⟨whole, rfl, rfl, hlt⟩
      · cases h
    · cases h
  · rintro ⟨whole, rfl, rfl, hlt⟩
    exact if_pos hlt

/-- A number that is not written like that stands for a float or a negative number, or is too large
for a float. -/
theorem Numeral.value_cases {bound : Nat} (hbound : bound ≤ wordBound) (n : Numeral)
    (negative : Bool) :
    (∃ whole, negative = false ∧ n = ⟨whole, [], none⟩ ∧
        n.value negative = some (.integer (ofDigits whole))) ∨
      (Datum.number negative n).below? bound = none ∧
        (n.value negative = none ∨ (∃ bits, n.value negative = some (.float bits)) ∨
          ∃ k, n.value negative = some (.integer (.negSucc k))) := by
  obtain ⟨whole, fraction, exponent⟩ := n
  rw [Numeral.value]
  dsimp only
  split
  · next hplain =>
    simp only [Bool.and_eq_true, Bool.not_eq_true', List.isEmpty_iff,
      Option.isNone_iff_eq_none] at hplain
    obtain ⟨⟨⟨rfl, rfl⟩, hnegative⟩, -⟩ := hplain
    exact .inl ⟨whole, hnegative, rfl, rfl⟩
  · next hplain =>
    refine .inr ⟨?_, ?_⟩
    · cases negative <;> cases fraction <;> cases exponent <;> try rfl
      refine if_neg fun hlt => hplain ?_
      simpa using Nat.lt_of_lt_of_le hlt hbound
    · split
      · next hminus =>
        simp only [Bool.and_eq_true, decide_eq_true_eq] at hminus
        obtain ⟨k, hk⟩ := Nat.exists_eq_succ_of_ne_zero (Nat.ne_of_gt hminus.1.2)
        exact .inr (.inr ⟨k, by rw [hk]; rfl⟩)
      · generalize Significand.toFloat? _ = float?
        cases float? with
        | none => exact .inl rfl
        | some x => exact .inr (.inl ⟨_, rfl⟩)

/-- Whole numbers below a bound are read, and nothing else. -/
theorem judges_natural {bound : Nat} (hbound : bound ≤ wordBound) (expected : String) :
    Judges (natural bound expected) (Datum.below? bound) where
  skips := skipsGaps_skipBlanksTo.bind _
  judges {datum text} hdatum feed hfeed := by
    obtain ⟨b, tail, rfl, hblank, hstart⟩ := hdatum.exists_cons
    have hkind := hstart.kind.2.2
    have hunexpected := @judged_unexpected Nat _ _ _ hdatum hfeed expected feed
    rw [List.cons_append] at hunexpected ⊢
    rw [natural, bind_of_eq_ok (skipBlanksTo_cons hblank)]
    by_cases hb : b = 0x2D ∨ isDigit b = true
    · obtain ⟨negative, n, rfl⟩ := hkind.mp hb
      have hfound := found_of_number hdatum hfeed
      rw [List.cons_append] at hfound
      rw [if_pos hb]
      rcases n.value_cases hbound negative with ⟨whole, rfl, rfl, hvalue⟩ | ⟨hnone, hother⟩
      · rw [hvalue] at hfound
        rw [bind_of_eq_ok hfound, Datum.below?]
        change Judged _ feed ((if ofDigits whole < bound then _ else _ : Reader Nat) feed)
        by_cases hlt : ofDigits whole < bound
        · rw [if_pos hlt, if_pos hlt]
          rfl
        · rw [if_neg hlt, if_neg hlt]
          exact ⟨_, rfl, trivial⟩
      · rw [hnone]
        rcases hother with hvalue | ⟨bits, hvalue⟩ | ⟨k, hvalue⟩
        all_goals rw [hvalue] at hfound
        · exact ⟨_, bind_of_eq_error hfound _, trivial⟩
        · exact ⟨_, bind_of_eq_ok hfound _, trivial⟩
        · exact ⟨_, bind_of_eq_ok hfound _, trivial⟩
    · have hnone : datum.below? bound = none := by
        cases datum with
        | number negative n => exact absurd (hkind.mpr ⟨negative, n, rfl⟩) hb
        | _ => rfl
      rw [if_neg hb, hnone]
      exact hunexpected

/-! ### Arrays -/

/-- The values of the elements of an array, if each of them has one. -/
def Datum.listOf? (value? : Datum → Option α) : Datum → Option (List α)
  | .list items => items.mapM value?
  | _ => none

variable {item : Reader α} {value? : Datum → Option α}

theorem Datum.listOf?_eq_some_iff {as : List α} : datum.listOf? value? = some as ↔
    ∃ items, datum = .list items ∧ List.Forall₂ (fun item a => value? item = some a) items as := by
  have hmapM : ∀ items : List Datum, items.mapM value? = some as ↔
      List.Forall₂ (fun item a => value? item = some a) items as := by
    intro items
    induction items generalizing as with
    | nil => simp [eq_comm]
    | cons item items ih =>
      simp only [List.mapM_cons, Option.bind_eq_bind, Option.bind_eq_some_iff, ih,
        List.forall₂_cons_left_iff]
      constructor
      · rintro ⟨a, ha, as, has, heq⟩
        obtain rfl := Option.some.inj heq
        exact ⟨a, as, ha, has, rfl⟩
      · rintro ⟨a, as, ha, has, rfl⟩
        exact ⟨a, ha, as, has, rfl⟩
  cases datum with
  | list items => simp [listOf?, hmapM]
  | _ => simp [listOf?]

/-- The elements are read up to the first one that is refused. -/
theorem Judges.elements (h : Judges item value?) {items : List Datum} {texts : List (List UInt8)}
    (htexts : List.Forall₂ (fun item text => Padded item.Written text) items texts)
    (hgap : Gap gap) (hgap' : Gap gap') (hmarks : texts.length < marks.length) (first : Bool)
    (acc : List α) (rest : List UInt8) (cut : Option Cut) :
    Judged ((items.mapM value?).map (acc.reverse ++ ·)) ⟨0x5D :: rest, cut⟩
      (elements item marks first acc
        ⟨gap ++ (separated first texts ++ (gap' ++ 0x5D :: rest)), cut⟩) := by
  induction htexts generalizing marks first acc gap with
  | nil =>
    obtain ⟨m, marks, rfl⟩ := List.exists_cons_of_length_pos (Nat.zero_lt_of_lt hmarks)
    rw [separated, List.nil_append, ← List.append_assoc, elements_close (hgap.append hgap'),
      List.mapM_nil]
    simp [Judged]
  | @cons datum _ data texts htext _ ih =>
    obtain ⟨m, marks, rfl⟩ := List.exists_cons_of_length_pos (Nat.zero_lt_of_lt hmarks)
    obtain ⟨before, core, after, hbefore, hcore, hafter, rfl⟩ := htext
    obtain ⟨b, tail, hcons, hb⟩ := hcore.value.exists_cons
    have hitem := h.judges hcore _ (stops_in_brackets .list hafter texts hgap' rest cut)
    have hmapM : (((datum :: data).mapM value?).map (acc.reverse ++ ·)) =
        (value? datum).bind fun a => (data.mapM value?).map ((a :: acc).reverse ++ ·) := by
      rw [List.mapM_cons]
      cases value? datum with
      | none => rfl
      | some a => cases data.mapM value? <;> simp
    simp only [separated, List.append_assoc]
    rw [elements_item ⟨b, tail, hcons, hb⟩ hgap hbefore, hmapM]
    exact hitem.bind fun a _ => ih hafter (Nat.lt_of_succ_lt_succ hmarks) false (a :: acc)

/-- Arrays are read whose elements are, and nothing else. -/
theorem Judges.listOf (h : Judges item value?) : Judges (listOf item) (Datum.listOf? value?) where
  skips := skipsGaps_skipBlanksTo.bind _
  judges {datum text} hdatum feed hfeed := by
    obtain ⟨b, tail, hcons, hblank, hstart⟩ := hdatum.exists_cons
    have hkind := hstart.kind.2.1
    by_cases hb : b = 0x5B
    · obtain ⟨items, rfl⟩ := hkind.mp hb
      obtain ⟨texts, gap, htexts, hgap, rfl⟩ := Datum.written_list_iff.mp hdatum
      have hne : ∀ text ∈ texts, text ≠ [] := by
        intro text htext
        obtain ⟨item, -, before, core, after, -, hcore, -, rfl⟩ :=
          Outcome.exists_left_of_forall₂ htexts htext
        obtain ⟨b, tail, rfl, -⟩ := hcore.exists_cons
        simp
      have helements := h.elements htexts gap_nil hgap
        (length_lt_separated hne true gap 0x5D feed.bytes) true [] feed.bytes feed.cut
      rw [Bracket.enclose_append, Json.listOf, bind_of_eq_ok (skipBlanksTo_cons (by decide)),
        if_pos (by decide), bind_of_eq_ok advance_cons, bind_of_eq_ok (ruler_eq _), Datum.listOf?]
      have hmap : ((items.mapM value?).map (([] : List α).reverse ++ ·)).map id =
          items.mapM value? := by simp
      rw [← hmap]
      exact helements.map fun items => bind_of_eq_ok (closeList_gap gap_nil) _
    · have hnone : datum.listOf? value? = none := by
        cases datum with
        | list items => exact absurd (hkind.mpr ⟨items, rfl⟩) hb
        | _ => rfl
      have hunexpected := @judged_unexpected (List α) _ _ _ hdatum hfeed "a sequence" feed
      rw [hcons, List.cons_append] at hunexpected ⊢
      rw [Json.listOf, bind_of_eq_ok (skipBlanksTo_cons hblank), if_neg hb, hnone]
      exact hunexpected

/-! ### Whole texts -/

/-- A whole text is decoded exactly if its datum has a value. Otherwise it has a flaw of its own. -/
theorem Judges.decodeFeed (h : Judges item value?) (htext : Padded datum.Written text) :
    (∀ a, decodeFeed item ⟨text, none⟩ = .ok a ↔ value? datum = some a) ∧
      (value? datum = none →
        ∃ flaw, decodeFeed item ⟨text, none⟩ = .error flaw ∧ flaw.IsOwn) := by
  obtain ⟨before, core, after, hbefore, hcore, hafter, rfl⟩ := htext
  -- what follows the value is white space and the end of the text
  have hdocument : Judged (value? datum) ⟨[], none⟩
      (document item ⟨before ++ (core ++ after), none⟩) := by
    have hmap : (value? datum).map id = value? datum := by simp
    rw [document, (h.skips.bind _) before _ none hbefore, ← hmap]
    exact (h.judges hcore _ hafter.stops_at_end).map fun a =>
      bind_of_eq_ok hafter.skipBlanks_at_end _
  rw [Json.decodeFeed]
  cases hvalue : value? datum with
  | some a =>
    rw [hvalue] at hdocument
    rw [show document item _ = .ok (a, _) from hdocument]
    refine ⟨fun a' => ?_, fun hnone => absurd hnone (Option.some_ne_none a)⟩
    rw [Option.some.injEq]
    exact ⟨fun h => Except.ok.inj h, fun h => congrArg Except.ok h⟩
  | none =>
    rw [hvalue] at hdocument
    obtain ⟨flaw, hflaw, hown⟩ := hdocument
    rw [hflaw]
    refine ⟨fun a => iff_of_false ?_ (Option.some_ne_none a).symm, fun _ => ⟨flaw, rfl, hown⟩⟩
    intro hok
    cases hok

end LockOrder.Json

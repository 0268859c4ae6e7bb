import LockOrder.Json.Shape
import LockOrder.Json.Writer
import LockOrder.Proofs.Json.Gap

/-!
# Reading strings

A string may be written in many ways: an octet may stand for itself, and any character may be an
escape. Whatever way is chosen, the string is read back octet by octet. A string that nobody looks
at is passed over even if its escapes stand for no text.

## Main definitions

* `Json.Spells`, `Json.Quoted` — how a text may be written between quotes, and with them
* `Json.Body` — what may stand between quotes, whether or not it stands for a text

## Main results

* `Json.stringBody_of_spells` — what is written between quotes is read back
* `Json.spells_escaped`, `Json.quoted_quote` — the way in which strings are written is one of them
* `Json.Quoted.reads` — a string is read back
* `Json.skipStringBody_of_body` — a string is passed over
-/

namespace LockOrder.Json

open Text (octets)

variable {b m : UInt8} {marks acc rest body bytes escape text : List UInt8} {cut : Option Cut}
  {c : Char} {n : Nat} {s : String}

/-! ### Escapes -/

/-- Four hexadecimal digits, and the number that they spell. -/
def Hex (text : List UInt8) (n : Nat) : Prop :=
  ∃ a b c d x y z w, text = [a, b, c, d] ∧ hexDigit? a = some x ∧ hexDigit? b = some y ∧
    hexDigit? c = some z ∧ hexDigit? d = some w ∧ n = ((x * 16 + y) * 16 + z) * 16 + w

theorem hexCode_of_hex (h : Hex text n) :
    hexCode ⟨text ++ rest, cut⟩ = .ok (n, ⟨rest, cut⟩) := by
  obtain ⟨a, b, c, d, x, y, z, w, rfl, ha, hb, hc, hd, rfl⟩ := h
  simp only [hexCode, List.cons_append, List.nil_append, run_bind, next_cons, ok_bind, ha, hb, hc,
    hd, run_pure]

/-- An escape after its backslash, and the octets that it stands for: a letter for one octet, or
the number of a character. A character past `U+FFFF` has two numbers, and half of such a pair is no
character. -/
inductive Escape : List UInt8 → List UInt8 → Prop where
  | letter {b c : UInt8} (h : shortEscape? b = some c) : Escape [b] [c]
  | code {text : List UInt8} {n : Nat} (h : Hex text n) (hn : n < 0xD800 ∨ 0xDFFF < n) :
      Escape (0x75 :: text) (String.utf8EncodeChar (Char.ofNat n))
  | pair {text text' : List UInt8} {high low : Nat} (h : Hex text high) (h' : Hex text' low)
      (hhigh : 0xD800 ≤ high ∧ high ≤ 0xDBFF) (hlow : 0xDC00 ≤ low ∧ low ≤ 0xDFFF) :
      Escape (0x75 :: (text ++ 0x5C :: 0x75 :: text'))
        (String.utf8EncodeChar
          (Char.ofNat ((high - 0xD800) * 0x400 + (low - 0xDC00) + 0x10000)))

theorem ne_of_shortEscape?_eq_some {c : UInt8} (h : shortEscape? b = some c) : b ≠ 0x75 := by
  rintro rfl
  have hnone : shortEscape? 0x75 = none := by decide
  exact Option.some_ne_none c (h.symm.trans hnone)

theorem escapeBytes_of_escape (h : Escape escape bytes) :
    escapeBytes ⟨escape ++ rest, cut⟩ = .ok (bytes, ⟨rest, cut⟩) := by
  cases h with
  | letter h =>
    rw [List.singleton_append, escapeBytes, bind_of_eq_ok next_cons,
      if_neg (ne_of_shortEscape?_eq_some h), h]
    rfl
  | @code text n h hn =>
    have hpoint : escapedCodePoint ⟨text ++ rest, cut⟩ = .ok (n, ⟨rest, cut⟩) := by
      rw [escapedCodePoint, bind_of_eq_ok (hexCode_of_hex h), if_neg (by omega),
        if_pos (by omega), run_pure]
    rw [List.cons_append, escapeBytes, bind_of_eq_ok next_cons, if_pos rfl, bind_of_eq_ok hpoint,
      run_pure]
  | @pair text text' high low h h' hhigh hlow =>
    have hmark : literal [0x5C, 0x75] ⟨0x5C :: 0x75 :: (text' ++ rest), cut⟩ =
        .ok ((), ⟨text' ++ rest, cut⟩) := rfl
    have hpoint : escapedCodePoint ⟨text ++ 0x5C :: 0x75 :: (text' ++ rest), cut⟩ =
        .ok ((high - 0xD800) * 0x400 + (low - 0xDC00) + 0x10000, ⟨rest, cut⟩) := by
      rw [escapedCodePoint, bind_of_eq_ok (hexCode_of_hex h), if_neg (by omega),
        if_neg (by omega), bind_of_eq_ok hmark, bind_of_eq_ok (hexCode_of_hex h'), if_pos hlow,
        run_pure]
    simp only [List.cons_append, List.append_assoc]
    rw [escapeBytes, bind_of_eq_ok next_cons, if_pos rfl, bind_of_eq_ok hpoint, run_pure]

/-! ### Octets of a string -/

/-- An octet that may stand for itself in a string. -/
def Plain (b : UInt8) : Prop := b ≠ 0x22 ∧ b ≠ 0x5C ∧ ¬ b < 0x20

/-- How octets may be written between quotes. -/
inductive Spells : List UInt8 → List UInt8 → Prop where
  | nil : Spells [] []
  | plain {b : UInt8} {body bytes : List UInt8} (hb : Plain b) (more : Spells body bytes) :
      Spells (b :: body) (b :: bytes)
  | escape {escape first body bytes : List UInt8} (h : Escape escape first)
      (more : Spells body bytes) : Spells (0x5C :: (escape ++ body)) (first ++ bytes)

theorem Spells.append {body' bytes' : List UInt8} (h : Spells body bytes)
    (h' : Spells body' bytes') : Spells (body ++ body') (bytes ++ bytes') := by
  induction h with
  | nil => exact h'
  | plain hb _ ih => exact .plain hb ih
  | escape hescape _ ih => simpa using Spells.escape hescape ih

theorem stringBytes_quote :
    stringBytes (m :: marks) acc ⟨0x22 :: rest, cut⟩ = .ok (acc.reverse, ⟨rest, cut⟩) := by
  rw [stringBytes, bind_of_eq_ok next_cons, if_pos rfl, run_pure]

theorem stringBytes_escape (h : Escape escape bytes) :
    stringBytes (m :: marks) acc ⟨0x5C :: (escape ++ rest), cut⟩ =
      stringBytes marks (bytes.reverse ++ acc) ⟨rest, cut⟩ := by
  rw [stringBytes, bind_of_eq_ok next_cons, if_neg (by decide), if_pos rfl,
    bind_of_eq_ok (escapeBytes_of_escape h)]

theorem stringBytes_plain (hb : Plain b) :
    stringBytes (m :: marks) acc ⟨b :: rest, cut⟩ = stringBytes marks (b :: acc) ⟨rest, cut⟩ := by
  rw [stringBytes, bind_of_eq_ok next_cons, if_neg hb.1, if_neg hb.2.1, if_neg hb.2.2]

theorem stringBytes_of_spells (h : Spells body bytes) (hmarks : body.length < marks.length) :
    stringBytes marks acc ⟨body ++ 0x22 :: rest, cut⟩ =
      .ok (acc.reverse ++ bytes, ⟨rest, cut⟩) := by
  -- every step takes one mark and at least one octet
  induction h generalizing marks acc with
  | nil =>
    obtain ⟨m, marks, rfl⟩ := List.exists_cons_of_length_pos (Nat.zero_lt_of_lt hmarks)
    simpa using stringBytes_quote
  | plain hb _ ih =>
    obtain ⟨m, marks, rfl⟩ := List.exists_cons_of_length_pos (Nat.zero_lt_of_lt hmarks)
    rw [List.cons_append, stringBytes_plain hb, ih (Nat.lt_of_succ_lt_succ hmarks)]
    simp
  | escape hescape _ ih =>
    obtain ⟨m, marks, rfl⟩ := List.exists_cons_of_length_pos (Nat.zero_lt_of_lt hmarks)
    simp only [List.length_cons, List.length_append] at hmarks
    rw [List.cons_append, List.append_assoc, stringBytes_escape hescape, ih (by omega)]
    simp

theorem stringBody_of_spells (h : Spells body (octets s)) :
    stringBody ⟨body ++ 0x22 :: rest, cut⟩ = .ok (s, ⟨rest, cut⟩) := by
  have hbytes : stringBytes (body ++ 0x22 :: rest) [] ⟨body ++ 0x22 :: rest, cut⟩ =
      .ok (octets s, ⟨rest, cut⟩) := stringBytes_of_spells h (by simp)
  rw [stringBody, bind_of_eq_ok (ruler_eq _), bind_of_eq_ok hbytes, Text.fromUTF8?_octets]
  rfl

/-! ### Written strings -/

/-- The octet of a hexadecimal digit. -/
def hexOctet (d : Nat) : UInt8 := if d < 10 then .ofNat (0x30 + d) else .ofNat (0x57 + d)

theorem utf8EncodeChar_hexDigit {d : Nat} (hd : d < 16) :
    String.utf8EncodeChar (Text.digitChar d) = [hexOctet d] := by
  revert d
  decide

theorem hexDigit?_hexOctet {d : Nat} (hd : d < 16) : hexDigit? (hexOctet d) = some d := by
  revert d
  decide

theorem escape_control (hc : c.toNat < 0x20) :
    Escape [0x75, 0x30, 0x30, hexOctet (c.toNat / 16), hexOctet (c.toNat % 16)]
      (String.utf8EncodeChar c) := by
  have hzero : hexDigit? 0x30 = some 0 := by decide
  have hhex : Hex [0x30, 0x30, hexOctet (c.toNat / 16), hexOctet (c.toNat % 16)] c.toNat :=
    ⟨_, _, _, _, _, _, _, _, rfl, hzero, hzero, hexDigit?_hexOctet (by omega),
      hexDigit?_hexOctet (by omega), by omega⟩
  have hcode := Escape.code hhex (by omega)
  rwa [Char.ofNat_toNat] at hcode

/-- A character is written as itself, or as an escape that stands for it. -/
theorem escapeChar_cases (c : Char) :
    (escapeChar c = [c] ∧ 0x20 ≤ c.toNat ∧ c ≠ '"' ∧ c ≠ '\\') ∨
      ∃ escape, (escapeChar c).flatMap String.utf8EncodeChar = 0x5C :: escape ∧
        Escape escape (String.utf8EncodeChar c) := by
  unfold escapeChar
  split
  · exact .inr ⟨[0x22], by decide, .letter rfl⟩
  · exact .inr ⟨[0x5C], by decide, .letter rfl⟩
  · exact .inr ⟨[0x62], by decide, .letter rfl⟩
  · exact .inr ⟨[0x66], by decide, .letter rfl⟩
  · exact .inr ⟨[0x6E], by decide, .letter rfl⟩
  · exact .inr ⟨[0x72], by decide, .letter rfl⟩
  · exact .inr ⟨[0x74], by decide, .letter rfl⟩
  · next hquote hbackslash _ _ _ _ _ =>
    split
    · next hlt =>
      refine .inr ⟨_, ?_, escape_control hlt⟩
      simp only [List.flatMap_cons, utf8EncodeChar_hexDigit (d := c.toNat / 16) (by omega),
        utf8EncodeChar_hexDigit (d := c.toNat % 16) (by omega)]
      rfl
    · next hge => exact .inl ⟨rfl, by omega, hquote, hbackslash⟩

theorem plain_of_mem_utf8EncodeChar (hc : 0x20 ≤ c.toNat) (hquote : c ≠ '"')
    (hbackslash : c ≠ '\\') (hb : b ∈ String.utf8EncodeChar c) : Plain b := by
  have hquote' : c.toNat ≠ 0x22 := fun h => hquote (Char.toNat_inj.mp h)
  have hbackslash' : c.toNat ≠ 0x5C := fun h => hbackslash (Char.toNat_inj.mp h)
  have hnat := Text.toNat_of_mem_utf8EncodeChar hb
  refine ⟨?_, ?_, ?_⟩
  · rintro rfl
    simp at hnat
    omega
  · rintro rfl
    simp at hnat
    omega
  · intro hlt
    have : b.toNat < 0x20 := UInt8.lt_iff_toNat_lt.mp hlt
    omega

theorem spells_self (h : ∀ b ∈ bytes, Plain b) : Spells bytes bytes := by
  induction bytes with
  | nil => exact .nil
  | cons b bytes ih =>
    obtain ⟨hb, hbytes⟩ := List.forall_mem_cons.mp h
    exact .plain hb (ih hbytes)

/-- The octets of a character as a string shows it. -/
def escapeOctets (c : Char) : List UInt8 := (escapeChar c).flatMap String.utf8EncodeChar

theorem spells_escapeOctets (c : Char) : Spells (escapeOctets c) (String.utf8EncodeChar c) := by
  rcases escapeChar_cases c with ⟨hself, hc, hquote, hbackslash⟩ | ⟨escape, hwritten, hescape⟩
  · rw [escapeOctets, hself, List.flatMap_singleton]
    exact spells_self fun b => plain_of_mem_utf8EncodeChar hc hquote hbackslash
  · rw [escapeOctets, hwritten]
    simpa using Spells.escape hescape .nil

/-- The octets of a string between its quotes. -/
def escaped (s : String) : List UInt8 := s.toList.flatMap escapeOctets

theorem spells_escaped (s : String) : Spells (escaped s) (octets s) := by
  rw [escaped, Text.octets_eq_flatMap]
  induction s.toList with
  | nil => exact .nil
  | cons c cs ih => exact (spells_escapeOctets c).append ih

/-- A string that stands for `s`. -/
def Quoted (s : String) (text : List UInt8) : Prop :=
  ∃ body, Spells body (octets s) ∧ text = 0x22 :: (body ++ [0x22])

theorem octets_quote (s : String) : octets (quote s) = 0x22 :: (escaped s ++ [0x22]) := by
  have hquote : String.utf8EncodeChar '"' = [0x22] := by decide
  have hescaped : (s.toList.flatMap escapeChar).flatMap String.utf8EncodeChar = escaped s := by
    rw [List.flatMap_assoc]
    rfl
  rw [quote, Text.octets_ofList, List.flatMap_append, List.flatMap_cons, List.flatMap_singleton,
    hquote, hescaped]
  rfl

theorem quoted_quote (s : String) : Quoted s (octets (quote s)) :=
  ⟨escaped s, spells_escaped s, octets_quote s⟩

theorem skipsGaps_text : SkipsGaps Json.text := skipsGaps_skipBlanksTo.bind _

/-- A string is read back. -/
theorem Quoted.reads (h : Quoted s text) : Reads Json.text text s := by
  obtain ⟨body, hbody, rfl⟩ := h
  refine ⟨⟨0x22, rfl, by decide⟩, fun feed _ => ?_⟩
  rw [List.cons_append, List.append_assoc, Json.text,
    bind_of_eq_ok (skipBlanksTo_cons (by decide)), if_pos rfl, bind_of_eq_ok advance_cons]
  exact stringBody_of_spells hbody

/-! ### Strings that nobody looks at -/

/-- What may stand between quotes: octets that stand for themselves, and escapes. -/
inductive Body : List UInt8 → Prop where
  | nil : Body []
  | plain {b : UInt8} {body : List UInt8} (hb : Plain b) (more : Body body) : Body (b :: body)
  | letter {b c : UInt8} {body : List UInt8} (h : shortEscape? b = some c) (more : Body body) :
      Body (0x5C :: b :: body)
  | code {text body : List UInt8} {n : Nat} (h : Hex text n) (more : Body body) :
      Body (0x5C :: 0x75 :: (text ++ body))

theorem skipStringBytes_of_body (h : Body body) (hmarks : body.length < marks.length) :
    skipStringBytes marks ⟨body ++ 0x22 :: rest, cut⟩ = .ok ((), ⟨rest, cut⟩) := by
  induction h generalizing marks with
  | nil =>
    obtain ⟨m, marks, rfl⟩ := List.exists_cons_of_length_pos (Nat.zero_lt_of_lt hmarks)
    rw [List.nil_append, skipStringBytes, bind_of_eq_ok next_cons, if_pos rfl, run_pure]
  | plain hb _ ih =>
    obtain ⟨m, marks, rfl⟩ := List.exists_cons_of_length_pos (Nat.zero_lt_of_lt hmarks)
    rw [List.cons_append, skipStringBytes, bind_of_eq_ok next_cons, if_neg hb.1, if_neg hb.2.1,
      if_neg hb.2.2, ih (Nat.lt_of_succ_lt_succ hmarks)]
  | @letter b c body hb _ ih =>
    obtain ⟨m, marks, rfl⟩ := List.exists_cons_of_length_pos (Nat.zero_lt_of_lt hmarks)
    have hskip : skipEscape ⟨b :: (body ++ 0x22 :: rest), cut⟩ =
        .ok ((), ⟨body ++ 0x22 :: rest, cut⟩) := by
      rw [skipEscape, bind_of_eq_ok next_cons, if_neg (ne_of_shortEscape?_eq_some hb), hb]
      rfl
    simp only [List.length_cons] at hmarks
    rw [List.cons_append, List.cons_append, skipStringBytes, bind_of_eq_ok next_cons,
      if_neg (by decide), if_pos rfl, bind_of_eq_ok hskip, ih (by omega)]
  | @code text body n hhex _ ih =>
    obtain ⟨m, marks, rfl⟩ := List.exists_cons_of_length_pos (Nat.zero_lt_of_lt hmarks)
    have hskip : skipEscape ⟨0x75 :: (text ++ (body ++ 0x22 :: rest)), cut⟩ =
        .ok ((), ⟨body ++ 0x22 :: rest, cut⟩) := by
      rw [skipEscape, bind_of_eq_ok next_cons, if_pos rfl, bind_of_eq_ok (hexCode_of_hex hhex)]
      rfl
    simp only [List.length_cons, List.length_append] at hmarks
    rw [List.cons_append, List.cons_append, List.append_assoc, skipStringBytes,
      bind_of_eq_ok next_cons, if_neg (by decide), if_pos rfl, bind_of_eq_ok hskip, ih (by omega)]

theorem skipStringBody_of_body (h : Body body) :
    skipStringBody ⟨body ++ 0x22 :: rest, cut⟩ = .ok ((), ⟨rest, cut⟩) := by
  rw [skipStringBody, bind_of_eq_ok (ruler_eq _)]
  exact skipStringBytes_of_body h (by simp)

end LockOrder.Json

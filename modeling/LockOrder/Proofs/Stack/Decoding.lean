import LockOrder.Error
import LockOrder.Proofs.Json.Datum
import LockOrder.Proofs.Stack.Json

/-!
# The texts that are frames and stacks

A frame has two forms: a string, which is the text of an unresolved frame, and an array of three
whole numbers. The array is read number by number, so it may turn out too short or too long at any
place, and each number has a bound of its own. A stack is an array of frames. Every other JSON text
is refused.

## Main definitions

* `Pos.ofDatum?`, `Stack.ofDatum?` — the frame or the stack that a datum stands for
* `Pos.HasDatum` — the two forms of a frame

## Main results

* `Pos.judges_read`, `Stack.judges_read` — frames and stacks are read, and nothing else
* `Stack.frames_decoded_exactly` — which texts are decoded
-/

namespace LockOrder

open Json (Reader Cut Feed Datum Judged Judges Gap Padded separated bind_of_eq_ok)

/-- A flaw of the text itself is a fault of its encoding. -/
theorem Error.layer_ofFlaw {flaw : Json.Flaw} (h : flaw.IsOwn) :
    (ofFlaw flaw).layer = .encoding := by
  cases flaw with
  | cut cause => exact h.elim
  | _ => rfl

theorem judges_readIndex : Judges readIndex (Datum.below? wordBound) :=
  Json.judges_natural (Nat.le_refl _) _

theorem judges_readLine : Judges readLine (Datum.below? lineBound) :=
  Json.judges_natural (by decide) _

namespace Pos

variable {item : Reader Nat} {value? : Datum → Option Nat} {datum : Datum} {items : List Datum}
  {text gap gap' : List UInt8} {texts : List (List UInt8)} {pos : Pos}

/-- The frame that a datum stands for. -/
def ofDatum? : Datum → Option Pos
  | .text s => some (.unresolved s)
  | .list [file, func, line] =>
    (file.below? wordBound).bind fun file => (func.below? wordBound).bind fun func =>
      (line.below? lineBound).bind fun line => some (.resolved file func line)
  | _ => none

/-! ### The numbers of a frame -/

theorem judged_readElement_close (hgap : Gap gap) (hgap' : Gap gap') (position : Nat)
    (first : Bool) (rest : List UInt8) (cut : Option Cut) (feed : Feed) :
    Judged (none : Option Nat) feed
      (readElement position item ⟨gap ++ (separated first [] ++ (gap' ++ 0x5D :: rest)), cut⟩) := by
  refine ⟨.wrongLength position expected, ?_, trivial⟩
  rw [separated, List.nil_append, ← List.append_assoc, readElement,
    bind_of_eq_ok (Json.moreElements_close (hgap.append hgap') _)]
  rfl

/-- A number of a frame is taken off together with the comma before it, or refused. -/
theorem judged_readElement_item (h : Judges item value?) (htext : Padded datum.Written text)
    (hgap : Gap gap) (hgap' : Gap gap') (position : Nat) (texts : List (List UInt8))
    (rest : List UInt8) (cut : Option Cut) :
    ∃ after, Gap after ∧
      Judged (value? datum) ⟨after ++ (separated false texts ++ (gap' ++ 0x5D :: rest)), cut⟩
        (readElement position item
          ⟨gap ++ (separated (position = 0) (text :: texts) ++ (gap' ++ 0x5D :: rest)), cut⟩) := by
  obtain ⟨before, core, after, hbefore, hcore, hafter, rfl⟩ := htext
  refine ⟨after, hafter, ?_⟩
  rw [readElement_padded hcore.value.exists_cons hgap hbefore]
  exact h.judges hcore _ (Json.stops_in_brackets .list hafter texts hgap' rest cut)

/-- Reads what follows the numbers of a frame. -/
def readEnd (pos : Pos) : Reader Pos := do
  if ← Json.moreElements false then
    Json.skipValue
    Json.fail (.wrongLength 4 expected)
  else
    Json.closeList
    return pos

/-- Reads the numbers of a frame and what follows them. -/
def readNumbers : Reader Pos := do
  let file ← readElement 0 readIndex
  let func ← readElement 1 readIndex
  let line ← readElement 2 readLine
  readEnd (.resolved file func line)

theorem readEnd_close (hgap : Gap gap) (hgap' : Gap gap') (pos : Pos) (rest : List UInt8)
    (cut : Option Cut) :
    readEnd pos ⟨gap ++ (separated false [] ++ (gap' ++ 0x5D :: rest)), cut⟩ =
      .ok (pos, ⟨rest, cut⟩) := by
  rw [separated, List.nil_append, ← List.append_assoc, readEnd,
    bind_of_eq_ok (Json.moreElements_close (hgap.append hgap') false), if_neg (by decide)]
  exact bind_of_eq_ok (Json.closeList_gap Json.gap_nil) _

/-- A fourth element is passed over before the frame is refused. -/
theorem judged_readEnd_item (htext : Padded datum.Written text) (hgap : Gap gap)
    (hgap' : Gap gap') (pos : Pos) (texts : List (List UInt8)) (rest : List UInt8)
    (cut : Option Cut) (feed : Feed) :
    Judged (none : Option Pos) feed
      (readEnd pos ⟨gap ++ (separated false (text :: texts) ++ (gap' ++ 0x5D :: rest)), cut⟩) := by
  obtain ⟨before, core, after, hbefore, hcore, hafter, rfl⟩ := htext
  have hstops := Json.stops_in_brackets .list hafter texts hgap' rest cut
  refine ⟨.wrongLength 4 expected, ?_, trivial⟩
  simp only [separated, List.append_assoc]
  rw [readEnd,
    bind_of_eq_ok (Json.moreElements_item hcore.value.exists_cons hgap hbefore false),
    if_pos rfl]
  exact bind_of_eq_ok (hcore.value.skipValue hstops) _

/-- An array is read as a frame if it has three elements and they are numbers within their bounds,
and refused at the first element that is missing, wrong or too many. -/
theorem judged_readNumbers
    (htexts : List.Forall₂ (fun item text => Padded item.Written text) items texts)
    (hgap : Gap gap) (rest : List UInt8) (cut : Option Cut) :
    Judged (ofDatum? (.list items)) ⟨rest, cut⟩
      (readNumbers ⟨separated true texts ++ (gap ++ 0x5D :: rest), cut⟩) := by
  cases htexts with
  | nil =>
    exact (judged_readElement_close Json.gap_nil hgap 0 true rest cut ⟨rest, cut⟩).refused nofun
  | @cons _ _ _ texts tfile htexts =>
    obtain ⟨after, hafter, hfile⟩ :=
      judged_readElement_item judges_readIndex tfile Json.gap_nil hgap 0 texts rest cut
    cases htexts with
    | nil =>
      exact hfile.refused fun _ _ =>
        (judged_readElement_close hafter hgap 1 false rest cut ⟨rest, cut⟩).refused nofun
    | @cons _ _ _ texts tfunc htexts =>
      obtain ⟨after', hafter', hfunc⟩ :=
        judged_readElement_item judges_readIndex tfunc hafter hgap 1 texts rest cut
      cases htexts with
      | nil =>
        exact hfile.refused fun _ _ => hfunc.refused fun _ _ =>
          (judged_readElement_close hafter' hgap 2 false rest cut ⟨rest, cut⟩).refused nofun
      | @cons _ _ _ texts tline htexts =>
        obtain ⟨after'', hafter'', hline⟩ :=
          judged_readElement_item judges_readLine tline hafter' hgap 2 texts rest cut
        cases htexts with
        | nil =>
          exact hfile.bind fun _ _ => hfunc.bind fun _ _ => hline.bind fun _ _ =>
            readEnd_close hafter'' hgap _ rest cut
        | @cons _ _ _ texts tmore htexts =>
          exact hfile.refused fun _ _ => hfunc.refused fun _ _ => hline.refused fun _ _ =>
            judged_readEnd_item tmore hafter'' hgap _ texts rest cut ⟨rest, cut⟩

/-! ### Frames -/

theorem read_of_ne {b : UInt8} (hblank : Json.isBlank b = false) (hquote : b ≠ 0x22)
    (hbracket : b ≠ 0x5B) (rest : List UInt8) (cut : Option Cut) :
    read ⟨b :: rest, cut⟩ = Json.unexpected expected ⟨b :: rest, cut⟩ := by
  rw [read, bind_of_eq_ok (Json.skipBlanksTo_cons hblank)]
  split
  · exact absurd rfl hquote
  · exact absurd rfl hbracket
  · rfl

/-- Frames are read, and nothing else. -/
theorem judges_read : Judges read ofDatum? where
  skips := Json.skipsGaps_skipBlanksTo.bind _
  judges {datum text} hdatum feed hfeed := by
    obtain ⟨b, tail, hcons, hblank, hstart⟩ := hdatum.exists_cons
    obtain ⟨hstring, harray, -⟩ := hstart.kind
    by_cases hquote : b = 0x22
    · obtain ⟨s, rfl⟩ := hstring.mp hquote
      cases hdatum with
      | text h =>
        obtain ⟨body, hbody, rfl⟩ := h
        rw [List.cons_append, List.append_assoc, List.singleton_append, read,
          bind_of_eq_ok (Json.skipBlanksTo_cons (by decide))]
        change Judged _ _ ((Json.advance >>= fun _ => _) _)
        rw [bind_of_eq_ok Json.advance_cons, bind_of_eq_ok (Json.stringBody_of_spells hbody)]
        rfl
    by_cases hbracket : b = 0x5B
    · obtain ⟨items, rfl⟩ := harray.mp hbracket
      obtain ⟨texts, gap, htexts, hgap, rfl⟩ := Datum.written_list_iff.mp hdatum
      rw [Json.Bracket.enclose_append]
      exact judged_readNumbers htexts hgap feed.bytes feed.cut
    · have hnone : ofDatum? datum = none := by
        cases datum with
        | text s => exact absurd (hstring.mpr ⟨s, rfl⟩) hquote
        | list items => exact absurd (harray.mpr ⟨items, rfl⟩) hbracket
        | _ => rfl
      have hunexpected := @Json.judged_unexpected Pos _ _ _ hdatum hfeed expected feed
      rw [hcons, List.cons_append] at hunexpected ⊢
      rw [read_of_ne hblank hquote hbracket, hnone]
      exact hunexpected

/-- A datum is one of the two forms of a frame: its text, or its three numbers in order and within
their bounds, without sign, fraction and exponent. -/
def HasDatum : Pos → Datum → Prop
  | .unresolved s, datum => datum = .text s
  | .resolved file func line, datum =>
    ∃ a b c, datum = .list [.number false ⟨a, [], none⟩, .number false ⟨b, [], none⟩,
        .number false ⟨c, [], none⟩] ∧
      Json.ofDigits a = file ∧ Json.ofDigits b = func ∧ Json.ofDigits c = line ∧
      file < wordBound ∧ func < wordBound ∧ line < lineBound

theorem ofDatum?_eq_some_iff : ofDatum? datum = some pos ↔ pos.HasDatum datum := by
  constructor
  · intro h
    unfold ofDatum? at h
    split at h
    · obtain rfl := Option.some.inj h
      rfl
    · simp only [Option.bind_eq_some_iff, Datum.below?_eq_some_iff] at h
      obtain ⟨_, ⟨a, rfl, rfl, ha⟩, _, ⟨b, rfl, rfl, hb⟩, _, ⟨c, rfl, rfl, hc⟩, heq⟩ := h
      obtain rfl := Option.some.inj heq
      exact ⟨a, b, c, rfl, rfl, rfl, rfl, ha, hb, hc⟩
    · cases h
  · intro h
    cases pos with
    | unresolved s =>
      obtain rfl : datum = .text s := h
      rfl
    | resolved file func line =>
      obtain ⟨a, b, c, rfl, rfl, rfl, rfl, ha, hb, hc⟩ := h
      have hbelow : ∀ {bound whole}, Json.ofDigits whole < bound →
          (Datum.number false ⟨whole, [], none⟩).below? bound = some (Json.ofDigits whole) :=
        fun hlt => Datum.below?_eq_some_iff.mpr ⟨_, rfl, rfl, hlt⟩
      rw [ofDatum?, hbelow ha, hbelow hb, hbelow hc]
      rfl

end Pos

/-! ### Stacks -/

namespace Stack

open Json (Bracket gap_nil)

variable {datum : Datum} {s : Stack}

/-- The stack that a datum stands for. -/
def ofDatum? (datum : Datum) : Option Stack := (datum.listOf? Pos.ofDatum?).map Stack.mk

/-- Stacks are read, and nothing else. -/
theorem judges_read : Judges read ofDatum? := Pos.judges_read.listOf.map Stack.mk

theorem ofDatum?_eq_some_iff : ofDatum? datum = some s ↔ ∃ items, datum = .list items ∧
    List.Forall₂ (fun item pos => pos.HasDatum item) items s.frames := by
  simp only [← Pos.ofDatum?_eq_some_iff, ← Datum.listOf?_eq_some_iff, ofDatum?,
    Option.map_eq_some_iff]
  constructor
  · rintro ⟨frames, hframes, rfl⟩
    exact hframes
  · exact fun h => ⟨s.frames, h, rfl⟩

/-- **Frames and stacks are decoded exactly from their forms**, whatever the JSON text. A text is
decoded as a frame exactly if it stands for a string, which becomes the text of an unresolved frame,
or for an array of three whole numbers within their bounds, which become the file, the function and
the line. It is decoded as a stack exactly if it stands for an array of frames, which become the
frames of the stack in order. Every other text is refused, for a fault of its encoding. -/
theorem frames_decoded_exactly (datum : Datum) (text : List UInt8)
    (htext : Padded datum.Written text) :
    (∀ pos, Json.decodeFeed Pos.read ⟨text, none⟩ = .ok pos ↔ pos.HasDatum datum) ∧
      ((∀ pos : Pos, ¬ pos.HasDatum datum) → ∃ flaw,
        Json.decodeFeed Pos.read ⟨text, none⟩ = .error flaw ∧
          (Error.ofFlaw flaw).layer = .encoding) ∧
      (∀ s, Json.decodeFeed Stack.read ⟨text, none⟩ = .ok s ↔ ∃ items, datum = .list items ∧
        List.Forall₂ (fun item pos => pos.HasDatum item) items s.frames) ∧
      ((∀ items, datum = .list items → ∃ item ∈ items, ∀ pos : Pos, ¬ pos.HasDatum item) →
        ∃ flaw, Json.decodeFeed Stack.read ⟨text, none⟩ = .error flaw ∧
          (Error.ofFlaw flaw).layer = .encoding) := by
  obtain ⟨hframe, hnoFrame⟩ := Pos.judges_read.decodeFeed htext
  obtain ⟨hstack, hnoStack⟩ := judges_read.decodeFeed htext
  refine ⟨fun pos => (hframe pos).trans Pos.ofDatum?_eq_some_iff, fun hnone => ?_,
    fun s => (hstack s).trans ofDatum?_eq_some_iff, fun hnone => ?_⟩
  · have hrefused : Pos.ofDatum? datum = none :=
      Option.eq_none_iff_forall_ne_some.mpr fun pos h => hnone pos (Pos.ofDatum?_eq_some_iff.mp h)
    obtain ⟨flaw, hflaw, hown⟩ := hnoFrame hrefused
    exact ⟨flaw, hflaw, Error.layer_ofFlaw hown⟩
  · have hrefused : ofDatum? datum = none := by
      refine Option.eq_none_iff_forall_ne_some.mpr fun s h => ?_
      obtain ⟨items, rfl, hframes⟩ := ofDatum?_eq_some_iff.mp h
      obtain ⟨item, hitem, hno⟩ := hnone items rfl
      obtain ⟨pos, -, hpos⟩ := Outcome.exists_right_of_forall₂ hframes hitem
      exact hno pos hpos
    obtain ⟨flaw, hflaw, hown⟩ := hnoStack hrefused
    exact ⟨flaw, hflaw, Error.layer_ofFlaw hown⟩

/-- A string with an escape and an array with white space in it are a stack, and no frame. -/
theorem frames_decoded_exactly_mixed :
    let datum : Datum := .list [.text "A", .list [.number false ⟨[1, 0], [], none⟩,
      .number false ⟨[0], [], none⟩, .number false ⟨[7], [], none⟩]]
    let text := Text.octets " [\"\\u0041\",[10, 0 ,7]]\n"
    Padded datum.Written text ∧
      Json.decodeFeed Stack.read ⟨text, none⟩ = .ok ⟨[.unresolved "A", .resolved 10 0 7]⟩ ∧
      ∃ flaw, Json.decodeFeed Pos.read ⟨text, none⟩ = .error flaw ∧
        (Error.ofFlaw flaw).layer = .encoding := by
  intro datum text
  have hspace : Gap [0x20] := by simp [Gap, Json.isBlank]
  have hnewline : Gap [0x0A] := by simp [Gap, Json.isBlank]
  have hwhole : ∀ {whole}, Json.Whole whole →
      (Datum.number false ⟨Json.valuesOf whole, [], none⟩).Written whole := by
    intro whole hwhole
    exact .number ⟨whole, [], [], hwhole, .none, .none, rfl, by simp⟩
  have hnumbers : (Datum.list [.number false ⟨[1, 0], [], none⟩, .number false ⟨[0], [], none⟩,
      .number false ⟨[7], [], none⟩]).Written (Text.octets "[10, 0 ,7]") := by
    have hten : Json.Whole [0x31, 0x30] := ⟨⟨by decide, List.all_eq_true.mp rfl⟩, by decide⟩
    have hzero : Json.Whole [0x30] := ⟨⟨by decide, List.all_eq_true.mp rfl⟩, by decide⟩
    have hseven : Json.Whole [0x37] := ⟨⟨by decide, List.all_eq_true.mp rfl⟩, by decide⟩
    refine Datum.written_list_iff.mpr ⟨[[0x31, 0x30], [0x20, 0x30, 0x20], [0x37]], [],
      .cons (.of_core (hwhole hten)) (.cons ?_ (.cons (.of_core (hwhole hseven)) .nil)), gap_nil,
      by decide +kernel⟩
    exact ⟨[0x20], [0x30], [0x20], hspace, hwhole hzero, hspace, rfl⟩
  have hquoted : (Datum.text "A").Written (Text.octets "\"\\u0041\"") := by
    have hhex : Json.Hex [0x30, 0x30, 0x34, 0x31] 0x41 :=
      ⟨_, _, _, _, 0, 0, 4, 1, rfl, by decide, by decide, by decide, by decide, by decide⟩
    have hspells := Json.Spells.escape (.code hhex (.inl (by decide))) .nil
    have hletter : String.utf8EncodeChar (Char.ofNat 0x41) ++ [] = Text.octets "A" := by
      decide +kernel
    rw [hletter] at hspells
    exact .text ⟨_, hspells, by decide +kernel⟩
  have htext : Padded datum.Written text := by
    refine ⟨[0x20], Bracket.enclose .list
      [Text.octets "\"\\u0041\"", Text.octets "[10, 0 ,7]"] [], [0x0A], hspace, ?_, hnewline,
      by decide +kernel⟩
    exact Datum.written_list_iff.mpr
      ⟨_, [], .cons (.of_core hquoted) (.cons (.of_core hnumbers) .nil), gap_nil, rfl⟩
  obtain ⟨_, hnoFrame, hstack, _⟩ := frames_decoded_exactly datum text htext
  refine ⟨htext, (hstack _).mpr ⟨_, rfl, .cons rfl (.cons ?_ .nil)⟩, hnoFrame fun pos hpos => ?_⟩
  · exact ⟨[1, 0], [0], [7], rfl, rfl, rfl, rfl, by decide, by decide, by decide⟩
  · cases pos with
    | unresolved s => simp [Pos.HasDatum, datum] at hpos
    | resolved file func line => simp [Pos.HasDatum, datum] at hpos

end Stack

end LockOrder

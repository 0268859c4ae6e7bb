import LockOrder.Error
import LockOrder.Proofs.Graph.Json

/-!
# Graphs are decoded by their fields

A graph can be written in many ways, and what is decoded does not depend on the one chosen: the
members of its objects may come in any order and among any others, its records may be arrays, its
empty lists may be null, and white space may stand between tokens. A field that is left out of any
object, or put in twice, is refused.

## Main results

* `Graph.decodeFeed_form` — every form of a graph is decoded as that graph
-/

namespace LockOrder

open Json (Form Padded Bracket Value Lead gap_nil)
open Text (octets)

/-- A slip is a fault of the text, not of the layers below it. -/
theorem Json.Slip.layer_flaw (slip : Json.Slip) : (Error.ofFlaw slip.flaw).layer = .encoding := by
  cases slip <;> rfl

namespace Graph

/-- What is written for a graph is one of its forms. Every form without a slip, with any white space
around it, is decoded as the graph. In every other one the first slip is found, and it is a fault of
the text. -/
theorem decodeFeed_form (g : Graph) (hg : g.Fits) :
    g.form none (octets g.json) ∧
    (∀ text, Padded (g.form none) text → Json.decodeFeed read ⟨text, none⟩ = .ok g) ∧
    ∀ slip text, Padded (g.form (some slip)) text →
      Json.decodeFeed read ⟨text, none⟩ = .error slip.flaw ∧
        (Error.ofFlaw slip.flaw).layer = .encoding := by
  have haccepts := accepts_read hg
  refine ⟨g.form_json, fun text htext => ?_, fun slip text htext => ⟨?_, slip.layer_flaw⟩⟩
  · exact haccepts.decodeFeed htext
  · exact haccepts.decodeFeed htext

/-- A graph that is written as an array is decoded, although its edge has a member that is no field
and the members of its table are swapped. It is refused if the edge has no member at all. -/
theorem decodeFeed_form_mixed :
    let g : Graph := ⟨#[], #[[⟨[]⟩]], #[], ⟨.empty, .empty⟩⟩
    let table := "\x7b\"Funcs\":[],\"Files\":null\x7d"
    let mixed := " [null,[[\x7b\"?\":[\x7b\x7d],\"Stacks\":null\x7d]],null," ++ table ++ "]"
    let lacking := "[null,[[\x7b\x7d]],null," ++ table ++ "]\n"
    g.Fits ∧ Json.decodeFeed read ⟨octets mixed, none⟩ = .ok g ∧
      Json.decodeFeed read ⟨octets lacking, none⟩ = .error (.missing "Stacks") := by
  intro g table mixed lacking
  have hnested : Value (Bracket.enclose .list [Bracket.enclose .object [] []] []) := by
    have hempty := @Value.nested .object [] [] nofun nofun nofun gap_nil
    exact @Value.nested .list [⟨[], Bracket.enclose .object [] [], []⟩] []
      (by simp [Lead.list gap_nil]) (by simpa using hempty) (by simp [gap_nil]) gap_nil
  have hedge : Edge.form ⟨[]⟩ none (Bracket.enclose .object
      [octets (Json.quote "?") ++ 0x3A :: Bracket.enclose .list [Bracket.enclose .object [] []] [],
        octets (Json.quote "Stacks") ++ 0x3A :: Json.null] []) := by
    refine .object ⟨[none, some ("Stacks", .list StackPair.form [])], .refl _, ?_⟩
    apply Form.sequence_enclose
    refine .cons ⟨"?", by decide, Form.member_quote ⟨rfl, hnested⟩⟩ (.cons ?_ .nil)
    exact Form.member_quote (.inr ⟨rfl, rfl, rfl⟩)
  have hnone : Edge.form ⟨[]⟩ (some (.missing "Stacks")) (Bracket.enclose .object [] []) := by
    have hobject : Form.object ["Stacks"] [] none (Bracket.enclose .object [] []) :=
      ⟨[], .refl _, Form.sequence_enclose .nil .object⟩
    exact @Form.record.missing _ [] [] ("Stacks", .list StackPair.form []) _ rfl hobject
  have htable : StackTable.form ⟨.empty, .empty⟩ none (Bracket.enclose .object
      [octets (Json.quote "Funcs") ++ 0x3A :: Bracket.enclose .list [] [],
        octets (Json.quote "Files") ++ 0x3A :: Json.null] []) := by
    let fields := StackTable.fields ⟨.empty, .empty⟩
    refine .object ⟨fields.reverse.map some, List.reverse_perm fields, ?_⟩
    apply Form.sequence_enclose
    refine .cons (Form.member_quote (.inl ?_)) (.cons (Form.member_quote (.inr ?_)) .nil)
    · exact Form.sequence_enclose .nil .list
    · exact ⟨rfl, rfl, rfl⟩
  have hone {form : Form} {slip? : Option Json.Slip} {text : List UInt8} (h : form slip? text) :
      Form.sequence .list [form] slip? (Bracket.enclose .list [text] []) :=
    ⟨[(slip?, text)], [], .cons (.of_core h) .nil, gap_nil, by cases slip? <;> rfl, rfl⟩
  -- both texts differ only in the edge, and a slip in the edge is the first one of the graph
  have hgraph {slip? : Option Json.Slip} {edge : List UInt8} (h : Edge.form ⟨[]⟩ slip? edge) :
      g.form slip? (Bracket.enclose .list [Json.null,
        Bracket.enclose .list [Bracket.enclose .list [edge] []] [], Json.null,
        Bracket.enclose .object
          [octets (Json.quote "Funcs") ++ 0x3A :: Bracket.enclose .list [] [],
            octets (Json.quote "Files") ++ 0x3A :: Json.null] []] []) := by
    refine .array ⟨[(none, Json.null), (slip?, _), (none, Json.null), (none, _)], [], ?_, gap_nil,
      by cases slip? <;> rfl, rfl⟩
    refine .cons (.of_core (.inr ⟨rfl, rfl, rfl⟩)) (.cons (.of_core (.inl ?_)) (.cons (.of_core
      (.inr ⟨rfl, rfl, rfl⟩)) (.cons (.of_core htable) .nil)))
    exact hone (.inl (hone h))
  -- what is left is to compare the octets of the two texts with those of the forms
  have hdecode := decodeFeed_form g (by decide)
  refine ⟨by decide, ?_, ?_⟩
  · refine hdecode.2.1 _ ⟨[0x20], _, [], by simp [Json.Gap, Json.isBlank], hgraph hedge, gap_nil, ?_⟩
    decide +kernel
  · refine (hdecode.2.2 _ _ ⟨[], _, [0x0A], gap_nil, hgraph hnone, ?_, ?_⟩).1
    · simp [Json.Gap, Json.isBlank]
    · decide +kernel

end Graph

end LockOrder

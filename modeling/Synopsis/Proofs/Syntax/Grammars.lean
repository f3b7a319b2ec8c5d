import Synopsis.Abridge
import Synopsis.Proofs.Syntax.Reading

/-!
# The trees of the languages

Each grammar is checked rule by rule for the kinds of nodes that it makes. What is read by it is
then built of these nodes, whatever the text.
-/

namespace Synopsis

open Syntax

/-- Which nodes with parts of strings a language has: doubled braces are known to one language only,
and two have no expressions inside strings. -/
def Language.makes : Language → Kind → Bool
  | .python, _ => true
  | .java, k | .javaScript, k | .typeScript, k | .tsx, k => k != .braceEscape
  | .go, k | .rust, k => k != .braceEscape && k != .interpolation

theorem Grammar.Go.grammar_makes (name : Grammar.Go.Rule) :
    (Grammar.Go.grammar name).makes (Language.makes .go) = true := by
  cases name with
  | operand line brace => cases line <;> cases brace <;> rfl
  | _ => rfl

theorem Grammar.Java.grammar_makes (name : Grammar.Java.Rule) :
    (Grammar.Java.grammar name).makes (Language.makes .java) = true := by
  cases name <;> rfl

theorem Grammar.Python.grammar_makes (name : Grammar.Python.Rule) :
    (Grammar.Python.grammar name).makes (Language.makes .python) = true := by
  cases name with
  | string lead quotes =>
    obtain ⟨mark, triple, raw, bytes, format⟩ := quotes
    cases raw <;> cases format <;> rfl
  | _ => rfl

theorem Grammar.Rust.grammar_makes (name : Grammar.Rust.Rule) :
    (Grammar.Rust.grammar name).makes (Language.makes .rust) = true := by
  cases name <;> rfl

theorem Grammar.Script.grammar_makes (d : Grammar.Script.Dialect) (name : Grammar.Script.Rule) :
    (Grammar.Script.grammar d name).makes (· != .braceEscape) = true := by
  obtain ⟨types, elements⟩ := d
  cases types <;> cases elements <;> cases name <;> rfl

theorem Language.tree_built (language : Language) (text : List Char) :
    ∀ x ∈ (language.tree text).preorder, Built language.makes x := by
  cases language with
  | go => exact Grammar.tree_built rfl rfl Grammar.Go.grammar_makes _ _ _ _ text
  | java => exact Grammar.tree?_or_empty_built rfl rfl Grammar.Java.grammar_makes _ _ text
  | python => exact Grammar.tree?_or_empty_built rfl rfl Grammar.Python.grammar_makes _ _ text
  | rust => exact Grammar.tree?_or_empty_built rfl rfl Grammar.Rust.grammar_makes _ _ text
  | javaScript | typeScript | tsx =>
    exact Grammar.tree?_or_empty_built rfl rfl (Grammar.Script.grammar_makes _) _ _ text

end Synopsis

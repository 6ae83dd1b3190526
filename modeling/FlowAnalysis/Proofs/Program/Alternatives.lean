import FlowAnalysis.Program.Alternatives
import FlowAnalysis.Proofs.Outcome

/-!
Translation fails only where the program is at fault. The calls that it accepts are said once here, for
the proofs about what it gives.
-/

namespace FlowAnalysis.Stmt

open Alternatives

/-- A call is accepted if its name is known, is not `print` and admits the arguments. An input is a value
from outside, whatever its prompt, and any other operation is built from its operands. -/
theorem alternatives_call_eq_ok_iff {point : Point} {name : String} {type : Ty} {arguments : List Stmt}
    {found : Alternatives} : (call point name type arguments).alternatives = .ok found ↔
      ∃ builtin, Builtin.named? name = some builtin ∧ builtin ≠ .print ∧
        builtin.admits arguments.length = true ∧
        (builtin = .input ∧ found = .singleton (.input type) ∨
          builtin ≠ .input ∧ ∃ operands, alternativesEach arguments = .ok operands ∧
            found = combine operands (builtin.build type)) := by
  rw [alternatives]
  split
  · rename_i hname
    refine iff_of_false throw_ne_ok ?_
    rintro ⟨builtin, hsome, -⟩
    exact Option.some_ne_none builtin (hsome.symm.trans hname)
  · rename_i hname
    refine iff_of_false throw_ne_ok ?_
    rintro ⟨builtin, hsome, hprint, -⟩
    exact hprint (Option.some.inj (hsome.symm.trans hname))
  · rename_i builtin hprint hname
    constructor
    · intro h
      split at h
      · rename_i hadmits
        refine ⟨builtin, hname, hprint, hadmits, ?_⟩
        split at h
        · rename_i hinput
          exact Or.inl ⟨hinput, (pure_eq_ok.1 h).symm⟩
        · rename_i hinput
          obtain ⟨operands, hoperands, h⟩ := bind_eq_ok.1 h
          exact Or.inr ⟨hinput, operands, hoperands, (pure_eq_ok.1 h).symm⟩
      · exact absurd h throw_ne_ok
    · rintro ⟨other, hother, -, hadmits, h⟩
      obtain rfl : other = builtin := Option.some.inj (hother.symm.trans hname)
      rw [if_pos hadmits]
      rcases h with ⟨hinput, rfl⟩ | ⟨hinput, operands, hoperands, rfl⟩
      · rw [if_pos hinput]
        rfl
      · rw [if_neg hinput, hoperands]
        rfl

mutual

theorem alternatives_meets : ∀ s : Stmt, Meets (fun _ => True) s.alternatives
  | literal _ _ => trivial
  | var _ _ => trivial
  | item _ _ target key => by
      rw [alternatives]
      exact (alternatives_meets target).bind fun _ _ =>
        (alternatives_meets key).bind fun _ _ => trivial
  | slice _ _ target lower upper stride => by
      rw [alternatives]
      exact (alternatives_meets target).bind fun _ _ =>
        (alternativesOption_meets lower).bind fun _ _ =>
          (alternativesOption_meets upper).bind fun _ _ =>
            (alternativesOption_meets stride).bind fun _ _ => trivial
  | list _ _ items => by
      rw [alternatives]
      exact (alternativesEach_meets items).bind fun _ _ => trivial
  | set _ _ items => by
      rw [alternatives]
      exact (alternativesEach_meets items).bind fun _ _ => trivial
  | dict _ _ keys values => by
      rw [alternatives]
      split
      · trivial
      · exact (alternativesEach_meets keys).bind fun _ _ =>
          (alternativesEach_meets values).bind fun _ _ => trivial
  | field _ _ target _ => by
      rw [alternatives]
      exact (alternatives_meets target).bind fun _ _ => trivial
  | call _ name _ arguments => by
      rw [alternatives]
      split
      · trivial
      · trivial
      · split
        · split
          · trivial
          · exact (alternativesEach_meets arguments).bind fun _ _ => trivial
        · trivial
  | assign _ _ _ => trivial
  | ret _ _ => trivial
  | raise _ => trivial

theorem alternativesEach_meets : ∀ ss : List Stmt, Meets (fun _ => True) (alternativesEach ss)
  | [] => trivial
  | s :: ss => by
      rw [alternativesEach]
      exact (alternatives_meets s).bind fun _ _ =>
        (alternativesEach_meets ss).bind fun _ _ => trivial

theorem alternativesOption_meets :
    ∀ s : Option Stmt, Meets (fun _ => True) (alternativesOption s)
  | none => trivial
  | some s => by
      rw [alternativesOption]
      exact (alternatives_meets s).bind fun _ _ => trivial

end

theorem alternativesOf_meets (ss : List Stmt) : Meets (fun _ => True) (alternativesOf ss) :=
  (alternativesEach_meets ss).bind fun _ _ => trivial

end FlowAnalysis.Stmt

import Mathlib.Data.List.Forall2
import StackMachine.Proofs.Vm.CallMatching

/-!
# Runs in lockstep

Two machines that differ only in what an instruction does not look at take the same steps.  The
second one is given as an image of the first, and the argument has two parts.  The checks of an
instruction agree, at least up to the faults that the first machine is known not to meet, so both
complete or both fault in the same way; and what a completed instruction makes of the image is the
image of what it makes of the first machine.
-/

namespace StackMachine

namespace Check

/-- When one check fails, so does the other, for the same cause, unless that cause is excused; and
the other never fails alone. -/
structure Eases (excused : Trap → Bool) (check other : Check) : Prop where
  same : check.fails = true → excused check.cause = false → other = check
  passes : check.fails = false → other.fails = false

variable {excused : Trap → Bool}

theorem eases_of_eq {check other : Check} (same : other = check) : Eases excused check other := by
  subst same
  exact ⟨fun _ _ => rfl, id⟩

theorem eases_refl (checks : List Check) : List.Forall₂ (Eases excused) checks checks := by
  apply List.forall₂_same.mpr
  intro check _
  exact eases_of_eq rfl

theorem fault?_cons (check : Check) (checks : List Check) :
    fault? (check :: checks) = if check.fails then some check.cause else fault? checks := by
  by_cases fails : check.fails <;> simp [fault?, fails]

/-- Lists of checks that ease each other find the same fault, unless it is excused. -/
theorem fault?_of_eases {checks others : List Check}
    (eases : List.Forall₂ (Eases excused) checks others)
    (unexcused : ∀ cause, fault? checks = some cause → excused cause = false) :
    fault? others = fault? checks := by
  induction eases with
  | nil => rfl
  | @cons check other checks others eased _ ih =>
      simp only [fault?_cons] at unexcused ⊢
      by_cases fails : check.fails = true
      · have same := eased.same fails (unexcused check.cause (by simp [fails]))
        simp [same, fails]
      · have passes := eased.passes (by simpa using fails)
        simp only [fails, passes] at unexcused ⊢
        exact ih unexcused

end Check

namespace Machine

open Transition

/-- A change to machines that leaves the program and the place in it alone. -/
structure KeepsPlace (embed : Machine → Machine) : Prop where
  code?_eq : ∀ machine, (embed machine).code? = machine.code?
  ip_eq : ∀ machine, (embed machine).ip = machine.ip
  frames_eq : ∀ machine, (embed machine).calls.frames = machine.calls.frames
  executed_eq : ∀ machine, (embed machine).executed = machine.executed

variable {embed : Machine → Machine} {machine : Machine} {code : Bytes}

/-- A step commutes with an embedding if faults and completed instructions do. -/
theorem step_embed (keeps : KeepsPlace embed) (loaded : machine.code? = some code)
    (faults : ∀ entry, Listing.decodeAt code machine.ip = .ok entry →
      entry.fault? (embed machine) code.length = entry.fault? machine code.length)
    (completes : ∀ entry, Listing.decodeAt code machine.ip = .ok entry →
      entry.fault? machine code.length = none →
      entry.printed? (embed machine) = entry.printed? machine ∧
        entry.machineAfter (embed machine) = embed (entry.machineAfter machine)) :
    (embed machine).step =
      ⟨machine.step.result, machine.step.printed?, embed machine.step.state⟩ := by
  have loadedImage : (embed machine).code? = some code := by rw [keeps.code?_eq, loaded]
  have place := keeps.ip_eq machine
  by_cases inside : machine.ip < code.length
  · cases decoded : Listing.decodeAt code machine.ip with
    | error error =>
        have decodedImage := decoded
        rw [← place] at decodedImage
        rw [step_of_decodeAt_error loadedImage (by omega) decodedImage,
          step_of_decodeAt_error loaded inside decoded]
    | ok entry =>
        have decodedImage := decoded
        rw [← place] at decodedImage
        rw [step_of_decodeAt_ok loadedImage decodedImage, step_of_decodeAt_ok loaded decoded]
        simp only [Entry.transition, faults entry decoded]
        cases fault : entry.fault? machine code.length with
        | some cause => rfl
        | none =>
            rcases completes entry decoded fault with ⟨printed, made⟩
            have goes : entry.ipAfter (embed machine) = entry.ipAfter machine := by
              have moved := congrArg Machine.ip made
              rwa [keeps.ip_eq] at moved
            simp only [Entry.statusAfter, goes, printed, made]
  · rw [step_of_length_le loadedImage (by omega), step_of_length_le loaded (by omega)]

end Machine

namespace Vm

open Transition

/-- Two instances stand at the same place of a program, with the same calls pending. -/
structure SamePlace (first second : Vm) : Prop where
  ip_eq : second.ip = first.ip
  frames_eq : second.frames = first.frames
  executed_eq : second.executed = first.executed

/-- An instance whose machine is the image of another's reports and prints the same, and stays its
image. -/
theorem lockstep {embed : Machine → Machine} {vm image : Vm} {machine : Machine} {code : Bytes}
    {count : Nat} (keeps : Machine.KeepsPlace embed) (live : vm.machine? = some machine)
    (loaded : machine.code? = some code) (liveImage : image.machine? = some (embed machine))
    (commutes : ∀ index < count, ∀ later, (vm.after index).machine? = some later →
      later.code? = some code →
      (embed later).step = ⟨later.step.result, later.step.printed?, embed later.step.state⟩) :
    (∀ index < count, (image.after index).step.result = (vm.after index).step.result ∧
      (image.after index).step.printed? = (vm.after index).step.printed?) ∧
    ∀ index ≤ count, SamePlace (vm.after index) (image.after index) ∧
      ∃ later, (vm.after index).machine? = some later ∧
        (image.after index).machine? = some (embed later) := by
  have reached : ∀ index, (vm.after index).machine? =
      some (Transition.after Machine.step index machine) := by
    intro index
    rw [after_live live]
  have squares : ∀ index < count, (embed (Transition.after Machine.step index machine)).step =
      ⟨(Transition.after Machine.step index machine).step.result,
        (Transition.after Machine.step index machine).step.printed?,
        embed (Transition.after Machine.step index machine).step.state⟩ := by
    intro index bound
    apply commutes index bound _ (reached index)
    exact (Machine.code?_after machine index).trans loaded
  have follows : ∀ index ≤ count, (image.after index).machine? =
      some (embed (Transition.after Machine.step index machine)) := by
    intro index bound
    rw [after_live liveImage, after_embed_of_le squares bound]
  constructor
  · intro index bound
    have square := squares index bound
    rw [step_live (follows index (by omega)), step_live (reached index), square]
    exact ⟨rfl, rfl⟩
  · intro index bound
    refine ⟨⟨?_, ?_, ?_⟩, _, reached index, follows index bound⟩
    · simp [ip, reached, follows index bound, keeps.ip_eq]
    · simp [frames, reached, follows index bound, keeps.frames_eq]
    · simp [executed, reached, follows index bound, keeps.executed_eq]

/-- The first step that fails is the only one that reports an error before it. -/
theorem error_of_runs {vm : Vm} {count index : Nat} {error found : Error} (runs : vm.Runs count)
    (fails : (vm.after count).step.result = .error error) (bound : index ≤ count)
    (reported : (vm.after index).step.result = .error found) : found = error := by
  rcases Nat.lt_or_eq_of_le bound with earlier | rfl
  · have running := (Transition.runs_iff step).mp runs index earlier
    cases running.symm.trans reported
  · cases fails.symm.trans reported
    rfl

end Vm

end StackMachine

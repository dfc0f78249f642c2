import StackMachine.Proofs.Vm.History

/-!
# Instances at rest

A step that ends a run may leave the instance as it was.  Whatever the host then does, short of a
renewal, ends in the same way, prints nothing and changes nothing.  Traps are of this kind and so is
the end of the bytecode.  END is not, since the program goes on behind it.
-/

namespace StackMachine

/-- An event that tries to go on ends in `result` and prints nothing. -/
def Event.Repeats (result : Except Error Status) : Event → Prop
  | step found printed? => found = result ∧ printed? = none
  | execute found printed => (found = result.map fun _ => ()) ∧ printed = #[]
  | _ => True

namespace Vm

/-- Each attempt to go on ends in the same result and changes nothing. -/
structure Rests (vm : Vm) (result : Except Error Status) : Prop where
  step_eq : vm.step = ⟨result, none, vm⟩
  execute_eq : ∀ fuel, vm.execute (fuel + 1) = some ⟨result.map fun _ => (), #[], vm⟩

variable {vm next last : Vm} {result : Except Error Status}

theorem rests_of_step {machine : Machine} (live : vm.machine? = some machine)
    (stepped : vm.step = ⟨result, none, vm⟩) (stops : result ≠ .ok .running) :
    vm.Rests result := by
  refine ⟨stepped, ?_⟩
  intro fuel
  apply (execute_eq_some_iff live).mpr
  refine ⟨0, by omega, trivial, ?_, ?_⟩
  · simpa [Transition.after, stepped] using stops
  · simp [Transition.stop, Transition.after, Transition.printed, stepped]

namespace Rests

theorem after_eq (rests : vm.Rests result) (count : Nat) : vm.after count = vm := by
  apply Transition.after_of_fixed
  rw [rests.step_eq]

theorem does {event : Event} (rests : vm.Rests result) (does : vm.Does event next)
    (quiet : event.renews = false) : next = vm ∧ event.Repeats result := by
  constructor
  · rcases does.exists_after quiet with ⟨count, rfl⟩
    exact rests.after_eq count
  · cases does with
    | rearm allocator config _ => trivial
    | destroy _ => trivial
    | load allocator code _ => trivial
    | step _ => simp [Event.Repeats, rests.step_eq]
    | execute finished =>
        have repeated := execute_succ finished
        rw [rests.execute_eq, Option.some.injEq] at repeated
        simp [Event.Repeats, ← repeated]

/-- Rest outlasts every history without a renewal, and each of its events meets it. -/
theorem history {events : List Event} (rests : vm.Rests result) (history : vm.History events last)
    (quiet : ∀ event ∈ events, event.renews = false) :
    last = vm ∧ ∀ event ∈ events, event.Repeats result := by
  induction history with
  | nil => exact ⟨rfl, by simp⟩
  | snoc history does ih =>
      rcases ih (fun event member => quiet event (by simp [member])) with ⟨rfl, repeated⟩
      rcases rests.does does (quiet _ (by simp)) with ⟨rfl, repeats⟩
      refine ⟨rfl, ?_⟩
      intro event member
      rcases List.mem_append.mp member with earlier | latest
      · exact repeated event earlier
      · rw [List.mem_singleton.mp latest]
        exact repeats

end Rests

end Vm

end StackMachine

import Patchbay.Proofs.Run.Choices
import Patchbay.TestSupport
/-!
# Steps that perform scripts

The types that test sessions add to the built-in ones have scripts for behaviours. A script can do
whatever a step can do, and in any order; its steps are told by their calls like those of the
built-in types. So what is said of a step that is told by its calls holds of them, too.

## Main statements

* `Script.told_run`: the steps of a script can be told by their calls.
-/
namespace Patchbay.Script

mutual

/-- Whatever an action of a script does, it can be told by its calls. -/
theorem told_perform : ∀ a : Action, (perform a).Told
  | .set _ _ => by simpa only [perform] using .setOutput _ _
  | .copy _ _ => by
    simpa only [perform] using (Step.Told.input _).bind fun _ => .setOutput _ _
  | .copyOutput _ _ => by
    simpa only [perform] using (Step.Told.output _).bind fun _ => .setOutput _ _
  | .add _ _ _ => by
    simpa only [perform] using (Step.Told.input _).bind fun _ =>
      (Step.Told.orFault _).bind fun _ => .setOutput _ _
  | .bump _ _ => by
    simpa only [perform] using (Step.Told.output _).bind fun _ =>
      (Step.Told.orFault _).bind fun _ => .setOutput _ _
  | .convert _ _ _ => by
    simpa only [perform] using (Step.Told.input _).bind fun _ =>
      (Step.Told.orFault _).bind fun _ => .setOutput _ _
  | .nodeId _ => by simpa only [perform] using Step.Told.read.bind fun _ => .setOutput _ _
  | .nodeName _ => by simpa only [perform] using Step.Told.read.bind fun _ => .setOutput _ _
  | .fire name => by simpa only [perform] using .make (.fire name)
  | .halt => by simpa only [perform] using .make .halt
  | .complain _ => by simpa only [perform] using .complain _
  | .ifComplaint yes no => by
    simp only [perform]
    refine Step.Told.get.bind fun _ => ?_
    split
    · exact told_run yes
    · exact told_run no
  | .ifInput input yes no => by
    simp only [perform]
    refine (Step.Told.hasInput input).bind fun _ => ?_
    split
    · exact told_run yes
    · exact told_run no
  | .ifConnected input yes no => by
    simp only [perform]
    refine (Step.Told.isConnected input).bind fun _ => ?_
    split
    · exact told_run yes
    · exact told_run no
  | .log _ none => by simpa only [perform] using .report _
  | .log _ (some _) => by
    simpa only [perform] using (Step.Told.input _).bind fun _ => .report _
  | .logComplaint => by
    simpa only [perform] using Step.Told.get.bind fun _ => .report _
  | .fail _ => by simpa only [perform] using .throw _
  | .refuse _ => by simpa only [perform] using .throw _
  | .failUnnamed => by simpa only [perform] using .throw _
  | .cancel => by simpa only [perform] using .modify fun _ => rfl

/-- Whatever a script does, it can be told by its calls. -/
theorem told_run : ∀ as : List Action, (run as).Told
  | [] => by simpa only [run] using .pure _
  | a :: as => by
    simpa only [run] using (told_perform a).bind fun _ => told_run as

end

end Patchbay.Script

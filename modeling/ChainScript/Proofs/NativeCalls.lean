import ChainScript.Proofs.History

/-
Which functions of the host are called, and with what.

A logged host replies as the host itself does, and it writes down every call
that reaches it.
-/

namespace ChainScript

variable {World : Type}

/-- A call of a function of the host, with all of its arguments. -/
structure NativeCall where
  name : String
  args : Container Value

/-- The state of a host that writes down which of its functions are called,
latest first. -/
structure Logged (World : Type) where
  world : World
  calls : List NativeCall

namespace Natives

/-- The functions of a host, which write down that they are called. -/
def logged (natives : Natives World) : Natives (Logged World) where
  reply name args heap log :=
    (natives.reply name args heap log.world).map fun world =>
      ⟨world, ⟨name, args⟩ :: log.calls⟩

/-- The log makes no difference to what a host replies. -/
theorem shownAs_logged (natives : Natives World) :
    natives.logged.ShownAs Logged.world natives := by
  intro name args heap log
  change _ = ((natives.reply name args heap log.world).map _).map _
  rw [Reply.map_map]
  exact (Reply.map_id _).symm

end Natives

/-- What a host that is both watching and logged would know otherwise. -/
def Watched.plain (watched : Watched (Logged World)) : World :=
  watched.world.world

/-- Neither the log nor what else is written down makes a difference. -/
theorem script_mapWorld_plain (natives : Natives World) (script : Script)
    (machine : Machine (Watched (Logged World))) :
    runScript natives script (machine.mapWorld Watched.plain) =
      let result := Worker.script (watch natives.logged) script machine
      (result.1, result.2.mapWorld Watched.plain) := by
  have hwatched :=
    (Worker.agrees_script (watch_agree natives.logged) script).shown machine
  have hlogged := (Worker.agrees_script
    (evaluate_agree natives.shownAs_logged) script).shown
      (machine.mapWorld Watched.world)
  rw [hwatched] at hlogged
  exact hlogged

end ChainScript

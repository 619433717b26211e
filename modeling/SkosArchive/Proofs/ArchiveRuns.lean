import SkosArchive.Proofs.WorkspaceIsolation

namespace SkosArchive

/-- What happens to an archive: a call to it, a change that others make to its
store, or the loss of a workspace that it has read. -/
inductive Turn where
  | call (call : ArchiveCall)
  | write (service : Service) (updates : List Update)
  | evict (workspace : Iri)

namespace Archive

def turn (a : Archive) : Turn → Except Error Answer × Archive
  | .call x => a.perform x.env x.op
  | .write service updates =>
    match Connection.apply ⟨a.store, service⟩ updates with
    | .ok store => (.ok .done, { a with store })
    | .error e => (.error (.storage e), a)
  | .evict ws => (.ok .done, { a with workspaces := (a.workspaces.evict ws).2 })

/-- The archive after turns that are taken one after the other. -/
def run (a : Archive) : List Turn → Archive
  | [] => a
  | x :: turns => (a.turn x).2.run turns

/-- Every turn is such when it is taken. -/
def Throughout (P : Archive → Turn → Prop) (a : Archive) : List Turn → Prop
  | [] => True
  | x :: turns => P a x ∧ (a.turn x).2.Throughout P turns

theorem write_eq (a : Archive) (service : Service) (updates : List Update) :
    ∃ store, (a.turn (.write service updates)).2 = { a with store } := by
  rw [turn]
  cases Connection.apply ⟨a.store, service⟩ updates with
  | ok store => exact ⟨store, rfl⟩
  | error e => exact ⟨a.store, rfl⟩

section

variable (env : Environment) (a : Archive)

theorem drops_refresh : (a.refresh env).2.drops = a.drops := by
  obtain ⟨contexts, h, -⟩ := a.refresh_cases env
  rw [h]

theorem workspaces_refresh : (a.refresh env).2.workspaces = .empty := by
  obtain ⟨contexts, h, -⟩ := a.refresh_cases env
  rw [h]

end

end Archive

end SkosArchive

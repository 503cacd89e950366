import TecnicoFs.Server.Refinement
import TecnicoFs.Sessions.Progress

/-!
# Service — what the server as a whole is for

To its clients the server is one file system behind twenty sessions. A mount gives the client's pipe
the lowest session that is free, an unmount gives the session back, and every other request is a call
of the file system. There are no slots, no threads and no pipes here: one request is served at a time.
-/

namespace TecnicoFs
namespace Sessions

open Lib Wire

structure Service where
  sessions : Fin maxSessionsAmount → Option CString
  fs : Server.Spec.FileSystem

namespace Service

/-- No client, no file. -/
def start : Service where
  sessions := fun _ => none
  fs := Server.Spec.FileSystem.empty

variable (x : Service)

/-- A pipe has one session at most, and a new client the lowest that nobody has. -/
def mount (path : CString) : ℤ × Service :=
  if (List.finRange maxSessionsAmount).any fun s => x.sessions s = some path then
    (-1, x)
  else
    match lowestFree x.sessions with
    | none => (-1, x)
    | some s => (s, { x with sessions := Function.update x.sessions s (some path) })

def unmount (z : ℤ) : Service :=
  { x with sessions := fun s => if (s : ℤ) = z then none else x.sessions s }

/-- A call of the file system. -/
def call (a : Server.Call) : Server.Reply × Service :=
  ((Server.Spec.FileSystem.exec a x.fs).1, { x with fs := (Server.Spec.FileSystem.exec a x.fs).2 })

/-- One request; a shutdown is not for this service. -/
def exec : Request CString → Service → Option (Reply (Option Server.Reply) × Service)
  | .mount path, x => some (.mount (x.mount path).1, (x.mount path).2)
  | .unmount z, x => some (.unmount 0, x.unmount z)
  | r, x => (operation r).map fun op =>
      (.library (some (x.call (libraryCall op)).1), (x.call (libraryCall op)).2)

theorem exec_call {x : Service} {r : Request CString} {op : Operation} (h : operation r = some op) :
    exec r x = some (.library (some (x.call (libraryCall op)).1), (x.call (libraryCall op)).2) := by
  cases r with
  | mount path => cases h
  | unmount z => cases h
  | shutdownAfterAllClosed z => cases h
  | «open» z name flags => rcases Option.some.inj h with rfl; rfl
  | close z fhandle => rcases Option.some.inj h with rfl; rfl
  | write z fhandle len buffer => rcases Option.some.inj h with rfl; rfl
  | read z fhandle len => rcases Option.some.inj h with rfl; rfl

end Service

def service : Machine Service (Request CString) (Reply (Option Server.Reply)) where
  exec := Service.exec

/-- The calls of the file system are those that its specification covers. -/
def Service.Allowed (x : Service) (r : Request CString) : Prop :=
  ∀ op, operation r = some op → Server.Spec.Allowed x.fs (libraryCall op)

/-! ## The tables of the server -/

/-- The server's table has the sessions of the service, and its library the files. -/
structure Serves (w : World (Option Server.State) (Option Server.Reply)) (x : Service) : Prop where
  sessions : ∀ s : Fin maxSessionsAmount, w.clientPipesTable s = x.sessions s
  library : ∃ s, w.lib = some s ∧ Server.Abstracts s x.fs

section Tables

variable {w w' : World (Option Server.State) (Option Server.Reply)} {x : Service} {path : CString}

theorem Serves.of_same (h : Serves w x) (htable : w'.clientPipesTable = w.clientPipesTable)
    (hlib : w'.lib = w.lib) : Serves w' x where
  sessions := by rw [htable]; exact h.sessions
  library := by rw [hlib]; exact h.library

theorem serves_start : Serves (World.start (some Server.tfsInit.2)) Service.start where
  sessions := fun _ => rfl
  library := ⟨_, rfl, Server.abstracts_tfsInit⟩

/-- A search through the sessions finds the same in both tables. -/
theorem find?_sessions (p : ℕ → Bool) :
    (List.range maxSessionsAmount).find? p =
      ((List.finRange maxSessionsAmount).find? fun s => p s.val).map Fin.val := by
  rw [← List.map_coe_finRange_eq_range, List.find?_map]
  rfl

theorem Serves.lowestFree (h : Serves w x) :
    ((List.range maxSessionsAmount).find? fun i => w.clientPipesTable i = none) =
      (lowestFree x.sessions).map Fin.val := by
  rw [find?_sessions, Lib.lowestFree]
  congr 2
  funext s
  rw [h.sessions s]
  cases x.sessions s <;> rfl

theorem Serves.any_path (h : Serves w x) (path : CString) :
    ((List.range maxSessionsAmount).any fun i => w.clientPipesTable i = some path) =
      (List.finRange maxSessionsAmount).any fun s => x.sessions s = some path := by
  rw [← List.map_coe_finRange_eq_range, List.any_map]
  congr 1
  funext s
  simp only [Function.comp_apply, h.sessions s]

/-- A mount finds a session in the table exactly if the service gives it one, the same. -/
theorem Serves.addClientPipe (h : Serves w x) (path : CString) :
    (Sessions.addClientPipe path w.clientPipesTable = none ∧ x.mount path = (-1, x)) ∨
      ∃ s : Fin maxSessionsAmount, Sessions.addClientPipe path w.clientPipesTable = some s.val ∧
        x.mount path =
          ((s.val : ℤ), { x with sessions := Function.update x.sessions s (some path) }) := by
  unfold Sessions.addClientPipe Service.mount
  rw [h.any_path, h.lowestFree]
  split_ifs with hmounted
  · exact Or.inl ⟨rfl, rfl⟩
  · rcases Lib.lowestFree x.sessions with _ | s
    · exact Or.inl ⟨rfl, rfl⟩
    · exact Or.inr ⟨s, rfl, rfl⟩

theorem Serves.mounted (h : Serves w x) {s : Fin maxSessionsAmount}
    (htable : w'.clientPipesTable = Function.update w.clientPipesTable s (some path))
    (hlib : w'.lib = w.lib) :
    Serves w' { x with sessions := Function.update x.sessions s (some path) } where
  sessions := by
    intro t
    rw [htable]
    by_cases hts : t = s
    · simp only [hts, Function.update_self]
    · have hne : (t : ℕ) ≠ s := fun heq => hts (Fin.ext heq)
      simp only [Function.update_of_ne hts, Function.update_of_ne hne]
      exact h.sessions t
  library := by rw [hlib]; exact h.library

theorem Serves.unmounted (h : Serves w x) {s : ℕ}
    (htable : w'.clientPipesTable = Function.update w.clientPipesTable s none)
    (hlib : w'.lib = w.lib) : Serves w' (x.unmount s) where
  sessions := by
    intro t
    rw [htable]
    by_cases hts : (t : ℕ) = s
    · simp [Service.unmount, hts]
    · have hne : (t : ℤ) ≠ s := fun heq => hts (by exact_mod_cast heq)
      simp only [Function.update_of_ne hts, Service.unmount, if_neg hne]
      exact h.sessions t
  library := by rw [hlib]; exact h.library

/-- A call that the specification covers is answered by the library as by the service. -/
theorem Serves.call (h : Serves w x) {op : Operation}
    (hok : Server.Spec.Allowed x.fs (libraryCall op)) :
    (serverExec op w.lib).1 = some (x.call (libraryCall op)).1 ∧
      ∀ w' : World (Option Server.State) (Option Server.Reply),
        w'.clientPipesTable = w.clientPipesTable → w'.lib = (serverExec op w.lib).2 →
          Serves w' (x.call (libraryCall op)).2 := by
  rcases h.library with ⟨s, hlib, habs⟩
  rcases habs.exec hok with ⟨t, hexec, habs'⟩
  have hserver : serverExec op w.lib =
      (some (Server.Spec.FileSystem.exec (libraryCall op) x.fs).1, some t) := by
    have hexec' : Server.exec (libraryCall op) s =
        some ((Server.Spec.FileSystem.exec (libraryCall op) x.fs).1, t) := hexec
    rw [hlib, serverExec, hexec']
  rw [hserver]
  refine ⟨rfl, ?_⟩
  intro w' htable hlib'
  exact ⟨by rw [htable]; exact h.sessions, ⟨t, hlib', habs'⟩⟩

end Tables

end Sessions
end TecnicoFs

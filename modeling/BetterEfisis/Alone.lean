import BetterEfisis.Lib.Reach
import BetterEfisis.Worker.MonitorWeb

/-!
# One monitor, alone with the feed

A run of `MonitorWEBWorker.perform` by itself, over the answers the feed gives it.
Each poll takes the first of those that are left, and where none is left it does
not return.
-/

namespace BetterEfisis

open Lib

structure Alone where
  store : Store
  /-- The statement executed next, or how the run has ended. -/
  at_ : Outcome MonitorWEBWorker.Pc
  /-- What the feed is still going to answer. -/
  answers : List Body

namespace Alone

/-- The statements that ask the feed. -/
def polls : MonitorWEBWorker.Pc → Bool
  | .waiting n => decide (n ≠ 200)
  | .polling _ _ => true
  | _ => false

/-- The answer for a statement, and those left behind it. One that does not ask reads none. -/
def answer (pc : MonitorWEBWorker.Pc) (answers : List Body) : Option (Body × List Body) :=
  if polls pc then
    match answers with
    | [] => none
    | body :: rest => some (body, rest)
  else some (.empty, answers)

/-- The run executes its next statement. -/
def act (cfg : Config) (id : Int) (w : Alone) (_ : Unit) : Option Alone :=
  match w.at_ with
  | .next pc =>
      (answer pc w.answers).map (fun r =>
        let o := MonitorWEBWorker.step cfg id r.1 w.store pc
        ⟨o.1, o.2, r.2⟩)
  | _ => none

/-- Before the first statement. -/
def start (s : Store) (answers : List Body) : Alone := ⟨s, .next (.waiting 0), answers⟩

variable {cfg : Config} {id : Int} {s : Store} {pc : MonitorWEBWorker.Pc} {body : Body}
  {rest : List Body}

theorem act_poll (h : polls pc = true) :
    act cfg id ⟨s, .next pc, body :: rest⟩ ()
      = some ⟨(MonitorWEBWorker.step cfg id body s pc).1,
        (MonitorWEBWorker.step cfg id body s pc).2, rest⟩ := by
  simp only [act, answer, if_pos h]
  rfl

theorem act_quiet (h : polls pc = false) :
    act cfg id ⟨s, .next pc, rest⟩ ()
      = some ⟨(MonitorWEBWorker.step cfg id .empty s pc).1,
        (MonitorWEBWorker.step cfg id .empty s pc).2, rest⟩ := by
  simp only [act, answer, h]
  rfl

/-- A poll that is not answered does not return. -/
theorem act_unanswered (h : polls pc = true) : act cfg id ⟨s, .next pc, []⟩ () = none := by
  simp only [act, answer, if_pos h]
  rfl

/-- What a step is: some answer, read by the next statement. -/
theorem act_eq_some {w w' : Alone} (h : act cfg id w () = some w') :
    ∃ pc body, w.at_ = .next pc ∧ w'.store = (MonitorWEBWorker.step cfg id body w.store pc).1
      ∧ w'.at_ = (MonitorWEBWorker.step cfg id body w.store pc).2 := by
  unfold act at h
  split at h
  · rename_i pc hp
    obtain ⟨r, _, rfl⟩ := Option.map_eq_some_iff.mp h
    exact ⟨pc, r.1, hp, rfl, rfl⟩
  · exact absurd h (by simp)

end Alone

end BetterEfisis

import Mathlib.Logic.Relation
import SessionGraph.Proofs.Agreement
import SessionGraph.Supervision

/-!
# Supervision under every interleaving

A supervised comparison is two parties that share a flag. The worker walks and polls the flag, and
the supervisor waits, sets the flag if the deadline fires first, and returns what the worker
answered. `Scene.Move` is one step of either, and nothing is said about who moves when.

The flag is set for a busy worker only by a supervisor that will not call the work completed
(`Scene.Sound`). Until then the worker is where one is that nobody supervises, and a worker that has
seen the flag fails, whatever it does next. So a verdict is that of the comparison itself in every
run (`Scene.verdict_of_run`), and the schedules of `Work.supervise` are among the runs
(`Scene.run_of_supervise`).
-/

namespace SessionGraph

open Relation

/-- How a worker is run. One on a thread sends word of its end and ends after that, and a task is
heard of when it has ended. The flag of a task is set when its supervisor goes away. -/
inductive Runtime where
  | thread
  | task
deriving DecidableEq, Repr

/-- Where a worker is that compares two graphs. -/
inductive Worker where
  | ready
  | walking (w : Walk)
  | answered (value : Bool)
  /-- Word of the end is sent. -/
  | reported (value : Bool)
  | ended (value : Bool)
  | broken (fault : Fault)

/-- Where a supervisor is. -/
inductive Supervisor where
  | waiting
  /-- The deadline has fired and the flag is not set yet. -/
  | overdue
  | joining (completed : Bool)
  | returned (finding : Finding)
  | raised (fault : Fault)
  /-- The supervisor was given up. -/
  | gone

/-- A flag and the two who share it. -/
structure Scene where
  flag : Bool
  worker : Worker
  supervisor : Supervisor

namespace Worker

/-- The worker has no value yet. -/
def Busy : Worker → Prop
  | .ready => True
  | .walking _ => True
  | _ => False

/-- Goes on with a comparison. The flag is the only thing that is shared, and this reads it once at
most, so it may count as one step. -/
def proceed (c : Comparison) (flag : Bool) : Worker → Worker
  | .ready =>
    match c.roots with
    | none => .answered false
    | some start =>
      match Walk.idle.inspect c flag start with
      | .ok w => .walking w
      | .error fault => .broken fault
  | .walking w =>
    if w.stack = [] then .answered w.holds
    else
      match w.advance c fun _ => flag with
      | .ok w' => .walking w'
      | .error fault => .broken fault
  | worker => worker

/-- Goes on to the end with the value that was found. -/
def retire (runtime : Runtime) : Worker → Worker
  | .answered value =>
    match runtime with
    | .thread => .reported value
    | .task => .ended value
  | .reported value => .ended value
  | worker => worker

end Worker

namespace Runtime

/-- A supervisor that waits can tell that the worker is done. -/
def Hears : Runtime → Worker → Prop
  | .thread, .reported _ => True
  | _, .ended _ => True
  | _, .broken _ => True
  | _, _ => False

end Runtime

namespace Scene

/-- Nothing has happened. -/
def initial : Scene := ⟨false, .ready, .waiting⟩

/-- One step of the worker or of the supervisor. -/
inductive Move (runtime : Runtime) (c : Comparison) : Scene → Scene → Prop
  | work {s : Scene} (h : s.worker.Busy) :
      Move runtime c s { s with worker := s.worker.proceed c s.flag }
  | retire {s : Scene} (h : ¬ s.worker.Busy) :
      Move runtime c s { s with worker := s.worker.retire runtime }
  | hear {s : Scene} (h : s.supervisor = .waiting) (hw : runtime.Hears s.worker) :
      Move runtime c s { s with supervisor := .joining true }
  | expire {s : Scene} (h : s.supervisor = .waiting) :
      Move runtime c s { s with supervisor := .overdue }
  | cancel {s : Scene} (h : s.supervisor = .overdue) :
      Move runtime c s { s with flag := true, supervisor := .joining false }
  | join {s : Scene} {completed value : Bool} (h : s.supervisor = .joining completed)
      (hw : s.worker = .ended value) :
      Move runtime c s
        { s with flag := s.flag || runtime = .task, supervisor := .returned ⟨value, completed⟩ }
  | raise {s : Scene} {completed : Bool} {fault : Fault} (h : s.supervisor = .joining completed)
      (hw : s.worker = .broken fault) :
      Move runtime c s
        { s with flag := s.flag || runtime = .task, supervisor := .raised fault }
  | abandon {s : Scene} (hr : runtime = .task)
      (h : s.supervisor = .waiting ∨ s.supervisor = .joining false) :
      Move runtime c s { s with flag := true, supervisor := .gone }

/-- Any number of steps. -/
abbrev Run (runtime : Runtime) (c : Comparison) : Scene → Scene → Prop :=
  ReflTransGen (Move runtime c)

end Scene

namespace Comparison

variable {c : Comparison} {start : NodePair} {w : Walk}

theorem Reaches.answers (hroots : c.roots = some start) (h : c.Reaches .never start w)
    (hs : w.stack = []) : c.Answers w.holds := by
  have hwalk : c.walk .never start = .ok w := by rw [h.walk_eq, Walk.run_of_nil _ hs]
  exact ⟨w.steps, report_of_walk hroots hwalk⟩

theorem answers_of_rootless (hroots : c.roots = none) : c.Answers false :=
  ⟨0, by simp only [report, hroots]⟩

end Comparison

/-! ## What a worker knows -/

namespace Worker

variable {c : Comparison} {worker : Worker}

/-- The worker is where it would be without a supervisor. -/
def Genuine (c : Comparison) : Worker → Prop
  | .walking w => ∃ start, c.roots = some start ∧ c.Reaches .never start w
  | .answered value | .reported value | .ended value => c.Answers value
  | _ => True

/-- The worker is bound to answer that the graphs are not related. -/
def Failing : Worker → Prop
  | .ready => False
  | .walking w => w.holds = false
  | .answered value | .reported value | .ended value => value = false
  | .broken _ => True

theorem Genuine.proceed (h : worker.Genuine c) (hb : worker.Busy) :
    (worker.proceed c false).Genuine c := by
  cases worker with
  | ready =>
    unfold Worker.proceed
    rcases hroots : c.roots with _ | start
    · exact Comparison.answers_of_rootless hroots
    · rcases hfirst : Walk.idle.inspect c false start with fault | w
      · simp only [hfirst, Genuine]
      · simp only [hfirst]
        exact ⟨start, hroots, .first hfirst⟩
  | walking w =>
    obtain ⟨start, hroots, hw⟩ := h
    unfold Worker.proceed
    by_cases hs : w.stack = []
    · simp only [hs, if_true]
      exact hw.answers hroots hs
    · rcases hadvance : w.advance c fun _ => false with fault | w'
      · simp only [hs, if_false, hadvance, Genuine]
      · simp only [hs, if_false, hadvance]
        exact ⟨start, hroots, hw.round hs hadvance⟩
  | _ => exact hb.elim

theorem Failing.proceed (h : worker.Failing) (hb : worker.Busy) (flag : Bool) :
    (worker.proceed c flag).Failing := by
  cases worker with
  | ready => exact h.elim
  | walking w =>
    change w.holds = false at h
    unfold Worker.proceed
    by_cases hs : w.stack = []
    · simp only [hs, if_true, Failing, h]
    · obtain ⟨top, rest, hstack⟩ := List.exists_cons_of_ne_nil hs
      simp only [hs, if_false, Walk.advance_of_leave hstack (.inl h), Failing, h, Bool.false_and]
  | _ => exact hb.elim

/-- Once the flag is set, a worker goes on as if it was not until it looks at it, and fails then. -/
theorem Genuine.proceed_set (h : worker.Genuine c) (hb : worker.Busy) :
    (worker.proceed c true).Genuine c ∨ (worker.proceed c true).Failing := by
  cases worker with
  | ready =>
    unfold Worker.proceed
    rcases hroots : c.roots with _ | start
    · exact .inl (Comparison.answers_of_rootless hroots)
    · right
      simp only [Walk.inspect_cancelled, Failing]
  | walking w =>
    obtain ⟨start, hroots, hw⟩ := h
    unfold Worker.proceed
    by_cases hs : w.stack = []
    · simp only [hs, if_true]
      exact .inl (hw.answers hroots hs)
    obtain ⟨⟨pair, pending, complete⟩, rest, hstack⟩ := List.exists_cons_of_ne_nil hs
    by_cases hleave : w.holds = false ∨ pending = []
    · -- leaving a pair does not poll
      simp only [hs, if_false, Walk.advance_of_leave hstack hleave]
      exact .inl ⟨start, hroots, hw.round hs (Walk.advance_of_leave hstack hleave)⟩
    · rw [not_or, Bool.not_eq_false] at hleave
      obtain ⟨next, pending, rfl⟩ := List.exists_cons_of_ne_nil hleave.2
      right
      simp only [hs, if_false, Walk.advance_of_pending hstack hleave.1, Walk.inspect_cancelled, Failing]
  | _ => exact hb.elim

end Worker

/-! ## What holds in every run -/

/-- The supervisor will not call the work completed. -/
def Supervisor.Late : Supervisor → Prop
  | .joining completed => completed = false
  | .returned finding => finding.completed = false
  | .raised _ | .gone => True
  | _ => False

namespace Scene

variable {runtime : Runtime} {c : Comparison} {s s' : Scene}

structure Sound (c : Comparison) (s : Scene) : Prop where
  worker : s.worker.Genuine c ∨ (s.supervisor.Late ∧ s.worker.Failing)
  flag : s.flag = true → s.worker.Busy → s.supervisor.Late
  heard : s.supervisor = .joining true → ¬ s.worker.Busy
  returned : ∀ finding, s.supervisor = .returned finding → s.worker = .ended finding.value
  raised : ∀ fault, s.supervisor = .raised fault → s.worker = .broken fault

theorem sound_initial : Sound c initial where
  worker := .inl trivial
  flag h := absurd h Bool.false_ne_true
  heard := nofun
  returned := nofun
  raised := nofun

theorem Hears.not_busy {worker : Worker} (h : runtime.Hears worker) : ¬ worker.Busy := by
  cases worker <;> cases runtime <;> simp_all [Runtime.Hears, Worker.Busy]

theorem Move.late (h : Move runtime c s s') (hs : s.supervisor.Late) : s'.supervisor.Late := by
  cases h with
  | work | retire => exact hs
  | hear h | expire h | cancel h =>
    rw [h] at hs
    exact hs.elim
  | join h =>
    rw [h] at hs
    exact hs
  | raise | abandon => trivial

theorem Run.late (h : Run runtime c s s') (hs : s.supervisor.Late) : s'.supervisor.Late := by
  induction h with
  | refl => exact hs
  | tail _ hmove ih => exact hmove.late ih

theorem Sound.work (hs : Sound c s) (hb : s.worker.Busy) :
    Sound c { s with worker := s.worker.proceed c s.flag } where
  worker := by
    rcases hs.worker with hgenuine | ⟨hlate, hfailing⟩
    · rcases hflag : s.flag with _ | _
      · exact .inl (hgenuine.proceed hb)
      · exact (hgenuine.proceed_set hb).imp_right fun h => ⟨hs.flag hflag hb, h⟩
    · exact .inr ⟨hlate, hfailing.proceed hb s.flag⟩
  flag h _ := hs.flag h hb
  heard h := absurd hb (hs.heard h)
  returned finding h := by
    rw [hs.returned finding h] at hb
    exact hb.elim
  raised fault h := by
    rw [hs.raised fault h] at hb
    exact hb.elim

theorem Sound.retire (hs : Sound c s) (hb : ¬ s.worker.Busy) :
    Sound c { s with worker := s.worker.retire runtime } := by
  have hvalue : (s.worker.Genuine c → (s.worker.retire runtime).Genuine c) ∧
      (s.worker.Failing → (s.worker.retire runtime).Failing) ∧
      ¬ (s.worker.retire runtime).Busy := by
    cases hworker : s.worker <;> rw [hworker] at hb
    case ready | walking => exact absurd trivial hb
    all_goals cases runtime <;> exact ⟨id, id, id⟩
  obtain ⟨hgenuine, hfailing, hbusy⟩ := hvalue
  refine ⟨hs.worker.imp hgenuine (And.imp_right hfailing), fun _ h => absurd h hbusy,
    fun _ => hbusy, fun finding hf => ?_, fun fault hf => ?_⟩
  · have hended := hs.returned finding hf
    simp only [hended, Worker.retire]
  · have hbroken := hs.raised fault hf
    simp only [hbroken, Worker.retire]

theorem Sound.move (hs : Sound c s) (h : Move runtime c s s') : Sound c s' := by
  cases h with
  | work hb => exact hs.work hb
  | retire hb => exact hs.retire hb
  | hear h hw =>
    have hnot : ¬ s.supervisor.Late := by rw [h]; exact id
    have hb := Hears.not_busy hw
    exact ⟨.inl (hs.worker.resolve_right fun hlate => hnot hlate.1),
      fun _ hbusy => absurd hbusy hb, fun _ => hb, nofun, nofun⟩
  | expire h =>
    have hnot : ¬ s.supervisor.Late := by rw [h]; exact id
    exact ⟨.inl (hs.worker.resolve_right fun hlate => hnot hlate.1),
      fun hf hb => absurd (hs.flag hf hb) hnot, nofun, nofun, nofun⟩
  | cancel h =>
    have hnot : ¬ s.supervisor.Late := by rw [h]; exact id
    exact ⟨.inl (hs.worker.resolve_right fun hlate => hnot hlate.1), fun _ _ => rfl, nofun, nofun,
      nofun⟩
  | join h hw =>
    have hb : ¬ s.worker.Busy := by rw [hw]; exact id
    have hworker := hs.worker
    rw [h] at hworker
    refine ⟨hworker, fun _ hbusy => absurd hbusy hb, nofun, fun finding hf => ?_, nofun⟩
    cases hf
    exact hw
  | raise h hw =>
    refine ⟨hs.worker.imp_right fun hlate => ⟨trivial, hlate.2⟩, fun _ _ => trivial, nofun, nofun,
      fun fault hf => ?_⟩
    cases hf
    exact hw
  | abandon =>
    exact ⟨hs.worker.imp_right fun hlate => ⟨trivial, hlate.2⟩, fun _ _ => trivial, nofun, nofun,
      nofun⟩

theorem Run.sound (h : Run runtime c initial s) : Sound c s := by
  induction h with
  | refl => exact sound_initial
  | tail _ hmove ih => exact ih.move hmove

/-- A flag that is set for a busy worker is set by a supervisor that is late for good. -/
theorem Run.flag_eq_false {finding : Finding} (h : Run runtime c initial s)
    (h' : Run runtime c s s') (hr : s'.supervisor = .returned finding)
    (hcompleted : finding.completed = true) (hb : s.worker.Busy) : s.flag = false := by
  rcases hflag : s.flag with _ | _
  · rfl
  · have hlate := Run.late h' (h.sound.flag hflag hb)
    rw [hr] at hlate
    exact absurd (hcompleted.symm.trans hlate) (by simp)

theorem Sound.answers {finding : Finding} {related : Bool} (hs : Sound c s)
    (hr : s.supervisor = .returned finding) (hv : finding.verdict = some related) :
    c.Answers related := by
  obtain ⟨value, completed⟩ := finding
  have hworker := hs.worker
  rw [hs.returned _ hr, hr] at hworker
  rcases hworker with hgenuine | ⟨hlate, hfailing⟩
  · unfold Finding.verdict at hv
    split at hv
    · cases hv
      exact hgenuine
    · cases hv
  · -- a finding that is late and negative has no verdict
    change completed = false at hlate
    change value = false at hfailing
    rw [hlate, hfailing] at hv
    cases hv

/-! ## Every run can be brought to an end -/

/-- The worker has not met a node that is missing, and will not. -/
def Viable (c : Comparison) : Worker → Prop
  | .walking w => w.Consistent ∧ w.Within fun p => c.left.Reachable p.1 ∧ c.right.Reachable p.2
  | .broken _ => False
  | _ => True

theorem viable_retire {worker : Worker} (h : Viable c worker) :
    Viable c (worker.retire runtime) := by
  cases worker with
  | answered value => cases runtime <;> trivial
  | reported value => trivial
  | _ => exact h

theorem run_ended (flag value : Bool) (supervisor : Supervisor) :
    Run runtime c ⟨flag, .answered value, supervisor⟩ ⟨flag, .ended value, supervisor⟩ := by
  cases runtime with
  | thread => exact .head (.retire id) (.single (.retire id))
  | task => exact .single (.retire id)

theorem run_cancelled (worker : Worker) :
    Run runtime c ⟨false, worker, .waiting⟩ ⟨true, worker, .joining false⟩ :=
  .head (.expire rfl) (.single (.cancel rfl))

theorem run_heard (flag value : Bool) :
    Run runtime c ⟨flag, .ended value, .waiting⟩ ⟨flag, .ended value, .joining true⟩ := by
  refine .single (.hear rfl ?_)
  cases runtime <;> trivial

theorem exists_run_returned (flag value completed : Bool) :
    ∃ s', Run runtime c ⟨flag, .ended value, .joining completed⟩ s' ∧
      s'.supervisor = .returned ⟨value, completed⟩ :=
  ⟨_, .single (.join rfl rfl), rfl⟩

section Progress

variable (hl : c.left.Traversable) (hr : c.right.Traversable)

include hl hr in
theorem viable_proceed {worker : Worker} (h : Viable c worker) (flag : Bool) :
    Viable c (worker.proceed c flag) := by
  have hS := explorable_reachable hl hr
  cases worker with
  | ready =>
    unfold Worker.proceed
    rcases hroots : c.roots with _ | start
    · trivial
    · have hstart : c.left.Reachable start.1 ∧ c.right.Reachable start.2 := by
        unfold Comparison.roots at hroots
        split at hroots
        · cases hroots
          exact ⟨.root ‹_›, .root ‹_›⟩
        · cases hroots
      obtain ⟨w, hw⟩ : ∃ w, Walk.idle.inspect c flag start = .ok w :=
        Walk.exists_inspect hS hstart
      simp only [hw]
      exact ⟨Walk.consistent_idle.inspect hw,
        Walk.Within.inspect hS (fun _ h => absurd h List.not_mem_nil) hstart hw⟩
  | walking w =>
    unfold Worker.proceed
    by_cases hs : w.stack = []
    · simp only [hs, if_true, Viable]
    · obtain ⟨w', hw'⟩ : ∃ w', w.advance c (fun _ => flag) = .ok w' := h.2.exists_advance hS hs
      simp only [hs, if_false, hw']
      exact ⟨h.1.advance hs hw', h.2.advance hS hs hw'⟩
  | _ => exact h

include hl hr in
theorem Run.viable (h : Run runtime c initial s) : Viable c s.worker := by
  induction h with
  | refl => trivial
  | tail _ hmove ih =>
    cases hmove with
    | work => exact viable_proceed hl hr ih _
    | retire => exact viable_retire ih
    | _ => exact ih

include hl hr in
/-- A walk that is left alone comes to its answer: each round leaves less to do. -/
theorem exists_run_answered {w : Walk} (h : Viable c (.walking w)) (flag : Bool)
    (supervisor : Supervisor) :
    ∃ value, Run runtime c ⟨flag, .walking w, supervisor⟩ ⟨flag, .answered value, supervisor⟩ := by
  have hmove : Move runtime c ⟨flag, .walking w, supervisor⟩
      ⟨flag, Worker.proceed c flag (.walking w), supervisor⟩ := .work trivial
  have hviable := viable_proceed hl hr h flag
  unfold Worker.proceed at hmove hviable
  by_cases hs : w.stack = []
  · simp only [hs, if_true] at hmove
    exact ⟨w.holds, .single hmove⟩
  · rcases hadvance : w.advance c fun _ => flag with fault | w'
    · simp only [hs, if_false, hadvance] at hviable
      exact hviable.elim
    · simp only [hs, if_false, hadvance] at hmove hviable
      have hlt := Walk.advance_lt h.1 hs hadvance
      obtain ⟨value, hrun⟩ := exists_run_answered hviable flag supervisor
      exact ⟨value, .head hmove hrun⟩
termination_by w.backlog c

include hl hr in
theorem exists_run_ended (h : Viable c s.worker) :
    ∃ value, Run runtime c s ⟨s.flag, .ended value, s.supervisor⟩ := by
  obtain ⟨flag, worker, supervisor⟩ := s
  cases worker with
  | ready =>
    have hmove : Move runtime c ⟨flag, .ready, supervisor⟩
        ⟨flag, Worker.proceed c flag .ready, supervisor⟩ := .work trivial
    have hviable := viable_proceed hl hr h flag
    generalize hworker : Worker.proceed c flag .ready = worker at hmove hviable
    unfold Worker.proceed at hworker
    rcases hroots : c.roots with _ | start
    · simp only [hroots] at hworker
      subst hworker
      exact ⟨false, .head hmove (run_ended flag false supervisor)⟩
    · rcases hfirst : Walk.idle.inspect c flag start with fault | w
      · simp only [hroots, hfirst] at hworker
        subst hworker
        exact hviable.elim
      · simp only [hroots, hfirst] at hworker
        subst hworker
        obtain ⟨value, hrun⟩ := exists_run_answered hl hr hviable flag supervisor
        exact ⟨value, .head hmove (hrun.trans (run_ended flag value supervisor))⟩
  | walking w =>
    obtain ⟨value, hrun⟩ := exists_run_answered hl hr h flag supervisor
    exact ⟨value, hrun.trans (run_ended flag value supervisor)⟩
  | answered value => exact ⟨value, run_ended flag value supervisor⟩
  | reported value => exact ⟨value, .single (.retire id)⟩
  | ended value => exact ⟨value, .refl⟩
  | broken fault => exact h.elim

include hl hr in
theorem Run.exists_returned (h : Run runtime c initial s) (hgone : s.supervisor ≠ .gone) :
    ∃ s' finding, Run runtime c s s' ∧ s'.supervisor = .returned finding := by
  have hviable := Run.viable hl hr h
  obtain ⟨value, hended⟩ : ∃ value, Run runtime c s ⟨s.flag, .ended value, s.supervisor⟩ :=
    exists_run_ended hl hr hviable
  obtain ⟨flag, worker, supervisor⟩ := s
  cases supervisor with
  | waiting =>
    obtain ⟨s', hrun, hs'⟩ := exists_run_returned flag value true
    exact ⟨s', _, hended.trans ((run_heard flag value).trans hrun), hs'⟩
  | overdue =>
    obtain ⟨s', hrun, hs'⟩ := exists_run_returned true value false
    exact ⟨s', _, hended.trans (.head (.cancel rfl) hrun), hs'⟩
  | joining completed =>
    obtain ⟨s', hrun, hs'⟩ := exists_run_returned flag value completed
    exact ⟨s', _, hended.trans hrun, hs'⟩
  | returned finding => exact ⟨_, finding, .refl, rfl⟩
  | raised fault =>
    have hbroken := h.sound.raised fault rfl
    rw [hbroken] at hviable
    exact hviable.elim
  | gone => exact absurd rfl hgone

end Progress

/-! ## The schedules of a supervisor -/

/-- The scene after `made` polls when the deadline passes right before poll `cut`. -/
def ofSchedule (cut made : Nat) (worker : Worker) : Scene :=
  ⟨cut ≤ made, worker, if cut ≤ made then .joining false else .waiting⟩

theorem run_ofSchedule_zero (cut : Nat) : Run runtime c initial (ofSchedule cut 0 .ready) := by
  by_cases h : cut ≤ 0
  · simp only [ofSchedule, h, decide_true, if_true]
    exact run_cancelled .ready
  · simp only [ofSchedule, h, decide_false, if_false]
    exact .refl

/-- The deadline passes if the next poll is the one it passes before. -/
theorem run_ofSchedule_succ (cut made : Nat) (worker : Worker) :
    Run runtime c (ofSchedule cut made worker) (ofSchedule cut (made + 1) worker) := by
  rcases Nat.lt_trichotomy cut (made + 1) with h | h | h
  · have h' : cut ≤ made := by omega
    simp only [ofSchedule, h', Nat.le_succ_of_le h', decide_true, if_true]
    exact .refl
  · subst h
    simp only [ofSchedule, Nat.not_succ_le_self, Nat.le_refl, decide_true, decide_false, if_true,
      if_false]
    exact run_cancelled worker
  · have h' : ¬ cut ≤ made ∧ ¬ cut ≤ made + 1 := by omega
    simp only [ofSchedule, h'.1, h'.2, decide_false, if_false]
    exact .refl

theorem run_of_reaches {cut : Nat} {start : NodePair} {w : Walk} (hroots : c.roots = some start)
    (h : c.Reaches (Work.pollsFrom cut 0) start w) :
    Run runtime c initial (ofSchedule cut w.steps (.walking w)) := by
  induction h with
  | @first w h =>
    have hwork : Move runtime c (ofSchedule cut 1 .ready)
        (ofSchedule cut 1 (Worker.proceed c (decide (cut ≤ 1)) .ready)) := .work trivial
    have hproceed : Worker.proceed c (decide (cut ≤ 1)) .ready = .walking w := by
      simp only [Work.pollsFrom, Nat.zero_add] at h
      simp only [Worker.proceed, hroots, h]
    rw [hproceed] at hwork
    rw [Walk.steps_of_inspect h]
    exact ((run_ofSchedule_zero cut).trans (run_ofSchedule_succ cut 0 .ready)).tail hwork
  | @round w w' _ hs hadvance ih =>
    have hwork (made : Nat) : Move runtime c (ofSchedule cut made (.walking w))
        (ofSchedule cut made (Worker.proceed c (decide (cut ≤ made)) (.walking w))) := .work trivial
    rcases Walk.advance_cases hs hadvance with
      ⟨pair, next, pending, complete, rest, hholds, hstack, hinspect⟩ |
      ⟨top, rest, hleave, hstack, hw'⟩
    · have hproceed :
          Worker.proceed c (decide (cut ≤ w.steps + 1)) (.walking w) = .walking w' := by
        simp only [Work.pollsFrom, Nat.zero_add] at hinspect
        simp only [Worker.proceed, hs, if_false, Walk.advance_of_pending hstack hholds, hinspect]
      have hmove := hwork (w.steps + 1)
      rw [hproceed] at hmove
      rw [Walk.steps_of_inspect hinspect]
      exact (ih.trans (run_ofSchedule_succ cut w.steps _)).tail hmove
    · have hproceed : Worker.proceed c (decide (cut ≤ w.steps)) (.walking w) = .walking w' := by
        simp only [Worker.proceed, hs, if_false, Walk.advance_of_leave hstack hleave, hw']
      have hmove := hwork w.steps
      rw [hproceed] at hmove
      rw [show w'.steps = w.steps by rw [hw']]
      exact ih.tail hmove

theorem exists_run_of_answered (cut made : Nat) (value : Bool) :
    ∃ s, Run runtime c (ofSchedule cut made (.answered value)) s ∧
      s.supervisor = .returned ⟨value, made < cut⟩ := by
  by_cases h : cut ≤ made
  · simp only [ofSchedule, h, decide_true, if_true, Nat.not_lt.mpr h, decide_false]
    obtain ⟨s, hrun, hs⟩ := exists_run_returned true value false
    exact ⟨s, (run_ended true value _).trans hrun, hs⟩
  · simp only [ofSchedule, h, decide_false, if_false, Nat.lt_of_not_le h, decide_true]
    obtain ⟨s, hrun, hs⟩ := exists_run_returned false value true
    exact ⟨s, (run_ended false value _).trans ((run_heard false value).trans hrun), hs⟩

/-- What a supervisor returns on a schedule is returned in a run. -/
theorem run_of_supervise {cut : Nat} {finding : Finding}
    (h : (Work.compare c).supervise cut = .ok finding) :
    ∃ s, Run runtime c initial s ∧ s.supervisor = .returned finding := by
  simp only [Work.supervise, Work.perform] at h
  rcases hroots : c.roots with _ | start
  · simp only [Comparison.report, hroots] at h
    cases h
    have hwork : Move runtime c (ofSchedule cut 0 .ready)
        (ofSchedule cut 0 (Worker.proceed c (decide (cut ≤ 0)) .ready)) := .work trivial
    simp only [Worker.proceed, hroots] at hwork
    obtain ⟨s, hrun, hs⟩ := exists_run_of_answered cut 0 false
    exact ⟨s, (run_ofSchedule_zero cut).trans (.head hwork hrun), hs⟩
  · rcases hwalk : c.walk (Work.pollsFrom cut 0) start with fault | w
    · simp only [Comparison.report, hroots, hwalk] at h
      cases h
    · simp only [Comparison.report_of_walk hroots hwalk] at h
      cases h
      obtain ⟨hreach, hstack⟩ := Comparison.reaches_of_walk hwalk
      have hwork : Move runtime c (ofSchedule cut w.steps (.walking w))
          (ofSchedule cut w.steps
            (Worker.proceed c (decide (cut ≤ w.steps)) (.walking w))) := .work trivial
      simp only [Worker.proceed, hstack, if_true] at hwork
      obtain ⟨s, hrun, hs⟩ := exists_run_of_answered cut w.steps w.holds
      exact ⟨s, (run_of_reaches hroots hreach).trans (.head hwork hrun), hs⟩

/-! ## Verdicts -/

/-- Whatever the order of the steps: if the work is called completed then the flag was not set while
the worker had no value, and a verdict is what the comparison answers when its flag is never set.
A supervisor that is not given up can always come to return. -/
theorem verdict_of_run (hl : c.left.InBounds) (hr : c.right.InBounds)
    (h : Run runtime c initial s) :
    (∀ finding, s.supervisor = .returned finding →
      (finding.completed = true → ∀ s₀, Run runtime c initial s₀ → Run runtime c s₀ s →
        s₀.worker.Busy → s₀.flag = false) ∧
      ∀ related, finding.verdict = some related → c.Answers related) ∧
    (s.supervisor ≠ .gone →
      ∃ s' finding, Run runtime c s s' ∧ s'.supervisor = .returned finding) := by
  refine ⟨fun finding hs => ⟨fun hcompleted s₀ hs₀ hrun hb => ?_, fun related hv => ?_⟩, ?_⟩
  · exact Run.flag_eq_false hs₀ hrun hs hcompleted hb
  · exact h.sound.answers hs hv
  · exact Run.exists_returned hl.traversable hr.traversable h

/-- Two loops that are related, compared in time, cut short at the second poll, and found related
by a worker that had its answer when the deadline fired. -/
theorem verdict_of_run_loops :
    let loop : Graph := ⟨#[.choice .output 0 [(0, 0), (1, 0)]], some 0⟩
    let long : Graph := ⟨#[.choice .output 0 [(0, 1), (1, 0)], .choice .output 0 [(0, 0), (1, 1)]],
      some 0⟩
    let c : Comparison := ⟨.discharging, loop, long⟩
    loop.InBounds ∧ long.InBounds ∧
    (∃ s, Run .thread c initial s ∧ s.supervisor = .returned ⟨true, true⟩ ∧ c.Answers true ∧
      ∀ s₀, Run .thread c initial s₀ → Run .thread c s₀ s → s₀.worker.Busy → s₀.flag = false) ∧
    (∃ s, Run .thread c initial s ∧ s.supervisor = .returned ⟨false, false⟩) ∧
    ∃ s, Run .task c initial s ∧ s.supervisor = .returned ⟨true, false⟩ ∧ c.Answers true := by
  intro loop long c
  have hl : loop.InBounds := by decide
  have hr : long.InBounds := by decide
  have hfound (cut : Nat) (finding : Finding)
      (h : ((Work.compare c).supervise cut).toOption = some finding) :
      (Work.compare c).supervise cut = .ok finding := by
    rcases hc : (Work.compare c).supervise cut with fault | finding'
    · rw [hc] at h
      cases h
    · rw [hc] at h
      cases h
      rfl
  obtain ⟨s₁, hrun₁, hs₁⟩ : ∃ s, Run .thread c initial s ∧ s.supervisor = .returned ⟨true, true⟩ :=
    run_of_supervise (hfound 100 _ (by decide +kernel))
  obtain ⟨s₂, hrun₂, hs₂⟩ :
      ∃ s, Run .thread c initial s ∧ s.supervisor = .returned ⟨false, false⟩ :=
    run_of_supervise (hfound 2 _ (by decide +kernel))
  have hverdict := (verdict_of_run hl hr hrun₁).1 _ hs₁
  -- the task has its answer, which is genuine, before the deadline fires
  obtain ⟨value, hended⟩ : ∃ value, Run .task c initial ⟨false, .ended value, .waiting⟩ :=
    exists_run_ended hl.traversable hr.traversable trivial
  obtain ⟨steps, hvalue⟩ : c.Answers value := hended.sound.worker.resolve_right fun h => h.1
  obtain ⟨steps', htrue⟩ := hverdict.2 true rfl
  rw [hvalue, Except.ok.injEq, Report.mk.injEq] at htrue
  rw [htrue.1] at hended
  obtain ⟨s₃, hrun₃, hs₃⟩ : ∃ s, Run .task c ⟨true, .ended true, .joining false⟩ s ∧
      s.supervisor = .returned ⟨true, false⟩ :=
    exists_run_returned true true false
  have hrun₃ := (hended.trans (run_cancelled _)).trans hrun₃
  exact ⟨hl, hr, ⟨s₁, hrun₁, hs₁, hverdict.2 true rfl, hverdict.1 rfl⟩, ⟨s₂, hrun₂, hs₂⟩,
    s₃, hrun₃, hs₃, ((verdict_of_run hl hr hrun₃).1 _ hs₃).2 true rfl⟩

end Scene

end SessionGraph

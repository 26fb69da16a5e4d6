import Pddm.Outcome

/-!
# The Linux timer manager

Timers expire in a signal handler, which queues their identifiers for a thread of its own that
runs the callbacks. Timers are registered and cancelled meanwhile, also by the callbacks.
-/
namespace Pddm

namespace LinuxTimerManager

/-- Where the callback thread is, and with which timer. -/
inductive Phase
  | waiting
  | dequeued (id : ℕ)
  | calling (id : ℕ)
  | called (id : ℕ)
  deriving DecidableEq, Repr

/-- What happens to timers, in order. -/
inductive Entry
  | registered (id : ℕ)
  | cancelled (id : ℕ)
  | dequeued (id : ℕ)
  | ran (id : ℕ)
  | removed (id : ℕ)
  deriving DecidableEq, Repr

/-- The calls of the program, by the callbacks as well as by other threads. -/
inductive Call
  | register
  | cancel (id : ℕ)
  deriving DecidableEq, Repr

inductive Step
  | call (c : Call)
  | expire (id : ℕ)
  | dequeue (id : ℕ)
  | check
  | callback (calls : List Call)
  | remove
  deriving DecidableEq, Repr

end LinuxTimerManager

/-- The timers of the operating system are the `armed` ones, which have yet to expire; `thread`
is the callback thread, whose exceptions end the program. -/
structure LinuxTimerManager where
  nextId : ℕ
  timerHandles : Finset ℕ
  timerCallbacks : Finset ℕ
  cancelledTimers : Finset ℕ
  firedTimers : List ℕ
  armed : List ℕ
  thread : LinuxTimerManager.Phase
  terminated : Bool
  log : List LinuxTimerManager.Entry
  deriving DecidableEq

namespace LinuxTimerManager

def initial : LinuxTimerManager := ⟨0, ∅, ∅, ∅, [], [], .waiting, false, []⟩

def registerTimer (s : LinuxTimerManager) : LinuxTimerManager :=
  { s with
    timerHandles := insert s.nextId s.timerHandles
    timerCallbacks := insert s.nextId s.timerCallbacks
    armed := s.armed ++ [s.nextId]
    nextId := s.nextId + 1
    log := s.log ++ [.registered s.nextId] }

/-- Only the calls for timers that have been registered are recorded. -/
def cancelTimer (id : ℕ) (s : LinuxTimerManager) : LinuxTimerManager :=
  { s with
    cancelledTimers :=
      if id ∈ s.timerHandles then insert id s.cancelledTimers else s.cancelledTimers
    log := if id < s.nextId then s.log ++ [.cancelled id] else s.log }

def perform (s : LinuxTimerManager) : Call → LinuxTimerManager
  | .register => s.registerTimer
  | .cancel id => s.cancelTimer id

/-- The signal handler; a timer fires once. -/
def timerSignalHandler (id : ℕ) (s : LinuxTimerManager) : LinuxTimerManager :=
  if id ∈ s.armed then
    { s with armed := s.armed.erase id, firedTimers := s.firedTimers ++ [id] }
  else s

/-- The queue hands out the fired timers in any order. -/
def dequeue (id : ℕ) (s : LinuxTimerManager) : LinuxTimerManager :=
  match s.thread with
  | .waiting =>
      if id ∈ s.firedTimers then
        { s with
          firedTimers := s.firedTimers.erase id
          thread := .dequeued id
          log := s.log ++ [.dequeued id] }
      else s
  | _ => s

def removeTimer (id : ℕ) (s : LinuxTimerManager) : LinuxTimerManager :=
  let s := { s with timerCallbacks := s.timerCallbacks.erase id }
  if id ∈ s.timerHandles then
    { s with
      timerHandles := s.timerHandles.erase id
      thread := .waiting
      log := s.log ++ [.removed id] }
  else { s with terminated := true }

def check (s : LinuxTimerManager) : LinuxTimerManager :=
  match s.thread with
  | .dequeued id =>
      if id ∈ s.cancelledTimers then
        removeTimer id { s with cancelledTimers := s.cancelledTimers.erase id }
      else { s with thread := .calling id }
  | _ => s

def callback (calls : List Call) (s : LinuxTimerManager) : LinuxTimerManager :=
  match s.thread with
  | .calling id =>
      if id ∈ s.timerCallbacks then
        calls.foldl perform { s with thread := .called id, log := s.log ++ [.ran id] }
      else { s with terminated := true }
  | _ => s

def remove (s : LinuxTimerManager) : LinuxTimerManager :=
  match s.thread with
  | .called id => s.removeTimer id
  | _ => s

def step (s : LinuxTimerManager) (e : Step) : LinuxTimerManager :=
  if s.terminated then s
  else
    match e with
    | .call c => s.perform c
    | .expire id => s.timerSignalHandler id
    | .dequeue id => s.dequeue id
    | .check => s.check
    | .callback calls => s.callback calls
    | .remove => s.remove

section Laws

def ranIds (log : List Entry) : List ℕ :=
  log.filterMap fun
    | .ran id => some id
    | _ => none

/-- A timer that was dequeued had not been cancelled before. -/
def Spared (log : List Entry) (id : ℕ) : Prop :=
  ∀ before after, log = before ++ .dequeued id :: after → .cancelled id ∉ before

def RunsSpared (before : List Entry) : Entry → Prop
  | .ran id => Spared before id
  | _ => True

/-- Nothing is left of a timer whose handle has been removed. -/
def Tidy (s : LinuxTimerManager) : Prop :=
  ∀ id, .removed id ∈ s.log →
    id ∉ s.timerHandles ∧ id ∉ s.timerCallbacks ∧ id ∉ s.cancelledTimers

def Running (s : LinuxTimerManager) (id : ℕ) : Prop :=
  s.thread = .calling id ∨ s.thread = .called id

/-- The step does not cancel the timer whose callback runs. -/
def SparesRunning (s : LinuxTimerManager) : Step → Prop
  | .call c => ∀ id, s.Running id → c ≠ .cancel id
  | .callback calls => ∀ id, s.thread = .calling id → .cancel id ∉ calls
  | _ => True

end Laws

section Tables
variable {s : LinuxTimerManager}

def Phase.ids : Phase → List ℕ
  | .waiting => []
  | .dequeued id | .calling id | .called id => [id]

/-- Every timer that was registered is on its way through the manager, and has its entries in the
two maps, or has been removed. -/
structure Tables (s : LinuxTimerManager) : Prop where
  running : s.terminated = false
  callbacks : s.timerCallbacks = s.timerHandles
  nodup : (s.armed ++ s.firedTimers ++ s.thread.ids).Nodup
  live : ∀ id, id ∈ s.timerHandles ↔ id ∈ s.armed ++ s.firedTimers ++ s.thread.ids
  fresh : ∀ id ∈ s.timerHandles, id < s.nextId
  removed : ∀ id, .removed id ∈ s.log ↔ id < s.nextId ∧ id ∉ s.timerHandles

theorem tables_initial : Tables initial := by
  constructor <;> simp [initial, Phase.ids]

theorem Tables.registerTimer (h : s.Tables) : s.registerTimer.Tables := by
  have hnew : s.nextId ∉ s.timerHandles := fun hmem => (h.fresh _ hmem).false
  have hperm : (s.armed ++ [s.nextId] ++ s.firedTimers ++ s.thread.ids).Perm
      (s.nextId :: (s.armed ++ s.firedTimers ++ s.thread.ids)) := by
    simp only [List.append_assoc, List.singleton_append]
    exact List.perm_middle
  constructor
  case running => exact h.running
  case callbacks =>
    simp only [LinuxTimerManager.registerTimer, h.callbacks]
  case nodup =>
    apply hperm.nodup_iff.mpr
    rw [List.nodup_cons, ← h.live]
    exact ⟨hnew, h.nodup⟩
  case live =>
    intro id
    have hmem := hperm.mem_iff (a := id)
    rw [List.mem_cons, ← h.live] at hmem
    exact Finset.mem_insert.trans hmem.symm
  case fresh =>
    intro id hid
    rcases Finset.mem_insert.mp hid with rfl | hid
    · exact Nat.lt_succ_self _
    · exact (h.fresh id hid).trans (Nat.lt_succ_self _)
  case removed =>
    intro id
    have hlt : id < s.nextId + 1 ∧ id ≠ s.nextId ↔ id < s.nextId := by omega
    simp only [LinuxTimerManager.registerTimer, List.mem_append, List.mem_singleton, reduceCtorEq,
      or_false, Finset.mem_insert, not_or]
    rw [h.removed, ← and_assoc, hlt]

theorem Tables.cancelTimer (h : s.Tables) (id : ℕ) : (s.cancelTimer id).Tables where
  running := h.running
  callbacks := h.callbacks
  nodup := h.nodup
  live := h.live
  fresh := h.fresh
  removed := by
    intro id'
    refine Iff.trans ?_ (h.removed id')
    unfold LinuxTimerManager.cancelTimer
    dsimp only
    split_ifs <;> simp

theorem Tables.perform (h : s.Tables) (c : Call) : (s.perform c).Tables := by
  cases c with
  | register => exact h.registerTimer
  | cancel id => exact h.cancelTimer id

theorem Tables.move (h : s.Tables) {t : LinuxTimerManager} (hrunning : t.terminated = false)
    (hhandles : t.timerHandles = s.timerHandles) (hcallbacks : t.timerCallbacks = s.timerCallbacks)
    (hnext : t.nextId = s.nextId) (hremoved : ∀ id, .removed id ∈ t.log ↔ .removed id ∈ s.log)
    (hperm : (t.armed ++ t.firedTimers ++ t.thread.ids).Perm
      (s.armed ++ s.firedTimers ++ s.thread.ids)) : t.Tables where
  running := hrunning
  callbacks := by rw [hcallbacks, hhandles, h.callbacks]
  nodup := hperm.nodup_iff.mpr h.nodup
  live := by
    intro id
    rw [hhandles, hperm.mem_iff, h.live]
  fresh := by
    rw [hhandles, hnext]
    exact h.fresh
  removed := by
    intro id
    rw [hremoved, hhandles, hnext, h.removed]

theorem Tables.timerSignalHandler (h : s.Tables) (id : ℕ) : (s.timerSignalHandler id).Tables := by
  unfold LinuxTimerManager.timerSignalHandler
  split_ifs with hid
  · refine h.move h.running rfl rfl rfl (fun _ => Iff.rfl) ?_
    apply List.Perm.append_right
    have hcons := (List.perm_cons_erase hid).append_right s.firedTimers
    refine List.Perm.trans ?_ hcons.symm
    rw [← List.append_assoc]
    exact List.perm_append_singleton id _
  · exact h

theorem Tables.dequeue (h : s.Tables) (id : ℕ) : (s.dequeue id).Tables := by
  unfold LinuxTimerManager.dequeue
  cases hthread : s.thread with
  | waiting =>
    dsimp only
    split_ifs with hid
    · refine h.move h.running rfl rfl rfl (fun _ => by simp) ?_
      rw [hthread, Phase.ids, Phase.ids, List.append_nil, List.append_assoc]
      apply List.Perm.append_left
      exact (List.perm_append_singleton id _).trans (List.perm_cons_erase hid).symm
    · exact h
  | dequeued id' | calling id' | called id' => exact h

theorem Tables.removeTimer (h : s.Tables) {id : ℕ} (hid : s.thread.ids = [id]) :
    (s.removeTimer id).Tables := by
  have hlive := h.live
  have hnodup := h.nodup
  rw [hid] at hlive hnodup
  have hmem : id ∈ s.timerHandles := (hlive id).mpr (by simp)
  have hnot : id ∉ s.armed ++ s.firedTimers := by
    intro hmem
    exact (List.nodup_append.mp hnodup).2.2 _ hmem _ (List.mem_singleton_self id) rfl
  unfold LinuxTimerManager.removeTimer
  dsimp only
  rw [if_pos hmem]
  constructor
  case running => exact h.running
  case callbacks =>
    dsimp only
    rw [h.callbacks]
  case nodup => simpa [Phase.ids] using (List.nodup_append.mp hnodup).1
  case live =>
    intro id'
    simp only [Phase.ids, List.append_nil, Finset.mem_erase]
    rw [hlive, List.mem_append, List.mem_singleton]
    constructor
    · rintro ⟨hne, hmem | rfl⟩
      · exact hmem
      · exact absurd rfl hne
    · intro hmem
      exact ⟨fun heq => hnot (heq ▸ hmem), Or.inl hmem⟩
  case fresh =>
    intro id' hid'
    exact h.fresh id' (Finset.mem_of_mem_erase hid')
  case removed =>
    intro id'
    have hremoved := h.removed id'
    have hfresh := h.fresh id hmem
    simp only [List.mem_append, List.mem_singleton, Entry.removed.injEq, Finset.mem_erase,
      not_and]
    rw [hremoved]
    constructor
    · rintro (⟨hlt, hnot⟩ | rfl)
      · exact ⟨hlt, fun _ => hnot⟩
      · exact ⟨hfresh, fun hne => absurd rfl hne⟩
    · rintro ⟨hlt, hnot⟩
      by_cases heq : id' = id
      · exact Or.inr heq
      · exact Or.inl ⟨hlt, hnot heq⟩

theorem Tables.check (h : s.Tables) : s.check.Tables := by
  unfold LinuxTimerManager.check
  cases hthread : s.thread with
  | dequeued id =>
    dsimp only
    split_ifs with hcancelled
    · refine Tables.removeTimer ?_ rfl
      refine h.move h.running rfl rfl rfl (fun _ => Iff.rfl) ?_
      rw [hthread]
    · refine h.move h.running rfl rfl rfl (fun _ => Iff.rfl) ?_
      rw [hthread, Phase.ids, Phase.ids]
  | waiting | calling id | called id => exact h

theorem Tables.performs (h : s.Tables) (calls : List Call) : (calls.foldl LinuxTimerManager.perform s).Tables := by
  induction calls generalizing s with
  | nil => exact h
  | cons c calls ih => exact ih (h.perform c)

theorem Tables.mem_callbacks (h : s.Tables) {id : ℕ} (hid : id ∈ s.thread.ids) :
    id ∈ s.timerCallbacks := by
  rw [h.callbacks, h.live]
  exact List.mem_append_right _ hid

theorem Tables.callback (h : s.Tables) (calls : List Call) : (s.callback calls).Tables := by
  unfold LinuxTimerManager.callback
  cases hthread : s.thread with
  | calling id =>
    dsimp only
    rw [if_pos (h.mem_callbacks (by simp [hthread, Phase.ids]))]
    apply Tables.performs
    refine h.move h.running rfl rfl rfl (fun _ => by simp) ?_
    rw [hthread, Phase.ids, Phase.ids]
  | waiting | dequeued id | called id => exact h

theorem Tables.remove (h : s.Tables) : s.remove.Tables := by
  unfold LinuxTimerManager.remove
  cases hthread : s.thread with
  | called id => exact h.removeTimer (by rw [hthread, Phase.ids])
  | waiting | dequeued id | calling id => exact h

theorem Tables.step (h : s.Tables) (e : Step) : (s.step e).Tables := by
  unfold LinuxTimerManager.step
  rw [if_neg (by simp [h.running])]
  cases e with
  | call c => exact h.perform c
  | expire id => exact h.timerSignalHandler id
  | dequeue id => exact h.dequeue id
  | check => exact h.check
  | callback calls => exact h.callback calls
  | remove => exact h.remove

end Tables

section Callbacks
variable {s : LinuxTimerManager} {log : List Entry} {id : ℕ}

theorem spared_of_not_mem (h : .cancelled id ∉ log) : Spared log id := by
  rintro before after rfl hmem
  exact h (List.mem_append_left _ hmem)

/-- Whether a timer was spared is settled once it has been dequeued. -/
theorem Spared.concat (h : Spared log id) {entry : Entry} (hentry : entry ≠ .dequeued id) :
    Spared (log ++ [entry]) id := by
  intro before after hlog
  rcases List.eq_nil_or_concat after with rfl | ⟨after, last, rfl⟩
  · obtain ⟨-, heq⟩ := List.append_inj' hlog rfl
    exact absurd (List.singleton_inj.mp heq) hentry
  · rw [List.concat_eq_append, ← List.cons_append, ← List.append_assoc] at hlog
    obtain ⟨rfl, -⟩ := List.append_inj' hlog rfl
    exact h before after rfl

/-- What the log tells of the timers on their way, and of the callbacks that ran. -/
structure Logged (s : LinuxTimerManager) : Prop where
  cancelled : ∀ id, .cancelled id ∈ s.log → id < s.nextId
  dequeued : ∀ id, .dequeued id ∈ s.log → id < s.nextId ∧ id ∉ s.armed ++ s.firedTimers
  marked : ∀ id, id ∈ s.armed ++ s.firedTimers ∨ s.thread = .dequeued id →
    .cancelled id ∈ s.log → id ∈ s.cancelledTimers
  ran : ∀ id ∈ ranIds s.log, id < s.nextId ∧ id ∉ s.armed ++ s.firedTimers ∧
    s.thread ≠ .dequeued id ∧ s.thread ≠ .calling id
  spared : ∀ id, s.thread = .calling id → Spared s.log id
  once : (ranIds s.log).Nodup
  honest : EveryEntry RunsSpared s.log

theorem logged_initial : Logged initial := by
  constructor <;> simp [initial, ranIds, everyEntry_nil]

theorem Logged.registerTimer (h : s.Logged) : s.registerTimer.Logged := by
  have hmem {id : ℕ} (hid : id ∈ s.armed ++ [s.nextId] ++ s.firedTimers) :
      id = s.nextId ∨ id ∈ s.armed ++ s.firedTimers := by
    simp only [List.mem_append, List.mem_singleton] at hid ⊢
    tauto
  have hran : ranIds (s.log ++ [.registered s.nextId]) = ranIds s.log := by simp [ranIds]
  constructor
  case cancelled =>
    intro id hid
    exact (h.cancelled id (by simpa [LinuxTimerManager.registerTimer] using hid)).trans
      (Nat.lt_succ_self _)
  case dequeued =>
    intro id hid
    obtain ⟨hlt, hnot⟩ := h.dequeued id (by simpa [LinuxTimerManager.registerTimer] using hid)
    refine ⟨hlt.trans (Nat.lt_succ_self _), fun hin => ?_⟩
    exact (hmem hin).elim hlt.ne hnot
  case marked =>
    intro id hid hcancelled
    have hbefore : .cancelled id ∈ s.log := by
      simpa [LinuxTimerManager.registerTimer] using hcancelled
    apply h.marked id ?_ hbefore
    refine hid.imp (fun hin => ?_) fun hthread => hthread
    exact (hmem hin).resolve_left (h.cancelled id hbefore).ne
  case ran =>
    intro id hid
    obtain ⟨hlt, hnot, hthread⟩ := h.ran id (hran ▸ hid)
    refine ⟨hlt.trans (Nat.lt_succ_self _), fun hin => ?_, hthread⟩
    exact (hmem hin).elim hlt.ne hnot
  case spared => exact fun id hthread => (h.spared id hthread).concat (by simp)
  case once => exact hran ▸ h.once
  case honest => exact everyEntry_concat.mpr ⟨h.honest, trivial⟩

theorem Logged.cancelTimer (h : s.Logged) (htables : s.Tables) (id : ℕ) :
    (s.cancelTimer id).Logged := by
  by_cases hid : id < s.nextId
  · have hlog : (s.cancelTimer id).log = s.log ++ [.cancelled id] := if_pos hid
    have hran : ranIds (s.cancelTimer id).log = ranIds s.log := by
      rw [hlog]
      simp [ranIds]
    have hsub : s.cancelledTimers ⊆ (s.cancelTimer id).cancelledTimers := by
      unfold LinuxTimerManager.cancelTimer
      dsimp only
      split_ifs
      · exact Finset.subset_insert _ _
      · exact Finset.Subset.refl _
    constructor
    case cancelled =>
      intro id' hid'
      rw [hlog, List.mem_append, List.mem_singleton] at hid'
      rcases hid' with hid' | hid'
      · exact h.cancelled id' hid'
      · cases hid'
        exact hid
    case dequeued =>
      intro id' hid'
      exact h.dequeued id' (by simpa [hlog] using hid')
    case marked =>
      intro id' hid' hcancelled
      rw [hlog, List.mem_append, List.mem_singleton] at hcancelled
      rcases hcancelled with hcancelled | hcancelled
      · exact hsub (h.marked id' hid' hcancelled)
      · cases hcancelled
        have hlive : id ∈ s.timerHandles := by
          apply (htables.live id).mpr
          rcases hid' with hid' | hthread
          · exact List.mem_append_left _ hid'
          · have hids : s.thread.ids = [id] := by
              rw [show s.thread = .dequeued id from hthread, Phase.ids]
            rw [hids]
            exact List.mem_append_right _ (List.mem_singleton_self id)
        have hinsert : (s.cancelTimer id).cancelledTimers = insert id s.cancelledTimers :=
          if_pos hlive
        rw [hinsert]
        exact Finset.mem_insert_self _ _
    case ran =>
      rw [hran]
      exact h.ran
    case spared =>
      intro id' hthread
      rw [hlog]
      exact (h.spared id' hthread).concat (by simp)
    case once => exact hran ▸ h.once
    case honest =>
      rw [hlog]
      exact everyEntry_concat.mpr ⟨h.honest, trivial⟩
  · have hnot : id ∉ s.timerHandles := fun hmem => hid (htables.fresh id hmem)
    have hsame : s.cancelTimer id = s := by
      unfold LinuxTimerManager.cancelTimer
      rw [if_neg hnot, if_neg hid]
    rw [hsame]
    exact h

theorem Logged.perform (h : s.Logged) (htables : s.Tables) (c : Call) : (s.perform c).Logged := by
  cases c with
  | register => exact h.registerTimer
  | cancel id => exact h.cancelTimer htables id

theorem Logged.performs (h : s.Logged) (htables : s.Tables) (calls : List Call) :
    (calls.foldl LinuxTimerManager.perform s).Logged := by
  induction calls generalizing s with
  | nil => exact h
  | cons c calls ih => exact ih (h.perform htables c) (htables.perform c)

theorem Logged.timerSignalHandler (h : s.Logged) (id : ℕ) : (s.timerSignalHandler id).Logged := by
  unfold LinuxTimerManager.timerSignalHandler
  split_ifs with hid
  · have hmem (id' : ℕ) : id' ∈ s.armed.erase id ++ (s.firedTimers ++ [id]) ↔
        id' ∈ s.armed ++ s.firedTimers := by
      have hperm := (List.perm_cons_erase hid).mem_iff (a := id')
      simp only [List.mem_append, List.mem_cons] at hperm ⊢
      tauto
    constructor
    case cancelled => exact h.cancelled
    case dequeued =>
      intro id' hid'
      rw [hmem]
      exact h.dequeued id' hid'
    case marked =>
      intro id' hid'
      rw [hmem] at hid'
      exact h.marked id' hid'
    case ran =>
      intro id' hid'
      rw [hmem]
      exact h.ran id' hid'
    case spared => exact h.spared
    case once => exact h.once
    case honest => exact h.honest
  · exact h

theorem Logged.dequeue (h : s.Logged) (htables : s.Tables) (id : ℕ) : (s.dequeue id).Logged := by
  unfold LinuxTimerManager.dequeue
  cases hthread : s.thread with
  | waiting =>
    dsimp only
    split_ifs with hid
    · have hin : id ∈ s.armed ++ s.firedTimers := List.mem_append_right _ hid
      have hlt : id < s.nextId :=
        htables.fresh id ((htables.live id).mpr (List.mem_append_left _ hin))
      have hnodup := (List.nodup_append.mp htables.nodup).1
      have hsub : s.armed ++ s.firedTimers.erase id ⊆ s.armed ++ s.firedTimers :=
        ((List.erase_sublist).append_left _).subset
      have hout : id ∉ s.armed ++ s.firedTimers.erase id := by
        have hperm : (s.armed ++ s.firedTimers).Perm (id :: (s.armed ++ s.firedTimers.erase id)) :=
          ((List.perm_cons_erase hid).append_left _).trans List.perm_middle
        exact (List.nodup_cons.mp (hperm.nodup_iff.mp hnodup)).1
      have hran : ranIds (s.log ++ [.dequeued id]) = ranIds s.log := by simp [ranIds]
      constructor
      case cancelled =>
        intro id' hid'
        exact h.cancelled id' (by simpa using hid')
      case dequeued =>
        intro id' hid'
        rcases List.mem_append.mp hid' with hid' | hid'
        · obtain ⟨hlt', hnot⟩ := h.dequeued id' hid'
          exact ⟨hlt', fun hin' => hnot (hsub hin')⟩
        · cases List.mem_singleton.mp hid'
          exact ⟨hlt, hout⟩
      case marked =>
        intro id' hid' hcancelled
        refine h.marked id' (Or.inl ?_) (by simpa using hcancelled)
        rcases hid' with hid' | hid'
        · exact hsub hid'
        · cases hid'
          exact hin
      case ran =>
        intro id' hid'
        obtain ⟨hlt', hnot, -⟩ := h.ran id' (hran ▸ hid')
        refine ⟨hlt', fun hin' => hnot (hsub hin'), ?_, by simp⟩
        intro heq
        cases heq
        exact hnot hin
      case spared =>
        intro id' heq
        cases heq
      case once => exact hran ▸ h.once
      case honest => exact everyEntry_concat.mpr ⟨h.honest, trivial⟩
    · exact h
  | dequeued id' | calling id' | called id' => exact h

/-- The removal of a timer, whose mark may have been cleared. -/
theorem Logged.removeTimer (h : s.Logged) {marks : Finset ℕ}
    (hmarks : ∀ id' ∈ s.armed ++ s.firedTimers, id' ∈ s.cancelledTimers → id' ∈ marks)
    (hid : id ∈ s.timerHandles) :
    (removeTimer id { s with cancelledTimers := marks }).Logged := by
  have hran : ranIds (s.log ++ [.removed id]) = ranIds s.log := by simp [ranIds]
  unfold LinuxTimerManager.removeTimer
  dsimp only
  rw [if_pos hid]
  constructor
  case cancelled =>
    intro id' hid'
    exact h.cancelled id' (by simpa using hid')
  case dequeued =>
    intro id' hid'
    exact h.dequeued id' (by simpa using hid')
  case marked =>
    intro id' hid' hcancelled
    rcases hid' with hid' | hid'
    · exact hmarks id' hid' (h.marked id' (Or.inl hid') (by simpa using hcancelled))
    · cases hid'
  case ran =>
    intro id' hid'
    obtain ⟨hlt, hnot, -⟩ := h.ran id' (hran ▸ hid')
    exact ⟨hlt, hnot, by simp, by simp⟩
  case spared =>
    intro id' heq
    cases heq
  case once => exact hran ▸ h.once
  case honest => exact everyEntry_concat.mpr ⟨h.honest, trivial⟩

/-- The timer that the thread has dequeued is not among those to come. -/
theorem Tables.of_thread (h : s.Tables) {phase : Phase} (hthread : s.thread = phase)
    (hid : phase.ids = [id]) : id ∈ s.timerHandles ∧ id ∉ s.armed ++ s.firedTimers := by
  have hnodup := h.nodup
  constructor
  · rw [h.live, hthread, hid]
    exact List.mem_append_right _ (List.mem_singleton_self id)
  · rw [hthread, hid] at hnodup
    intro hmem
    exact (List.nodup_append.mp hnodup).2.2 _ hmem _ (List.mem_singleton_self id) rfl

theorem Logged.check (h : s.Logged) (htables : s.Tables) : s.check.Logged := by
  cases hthread : s.thread with
  | dequeued id =>
    obtain ⟨hlive, hnot⟩ := htables.of_thread hthread rfl
    unfold LinuxTimerManager.check
    rw [hthread]
    dsimp only
    split_ifs with hcancelled
    · rw [← hthread]
      refine h.removeTimer (fun id' hid' hmarked => ?_) hlive
      exact Finset.mem_erase.mpr ⟨fun heq => hnot (heq ▸ hid'), hmarked⟩
    · constructor
      case cancelled => exact h.cancelled
      case dequeued => exact h.dequeued
      case marked =>
        intro id' hid'
        rcases hid' with hid' | hid'
        · exact h.marked id' (Or.inl hid')
        · cases hid'
      case ran =>
        intro id' hid'
        obtain ⟨hlt, hout, hne, -⟩ := h.ran id' hid'
        refine ⟨hlt, hout, by simp, fun heq => ?_⟩
        cases heq
        exact hne hthread
      case spared =>
        intro id' heq
        cases heq
        exact spared_of_not_mem fun hmem => hcancelled (h.marked id (Or.inr hthread) hmem)
      case once => exact h.once
      case honest => exact h.honest
  | waiting | calling id | called id =>
    unfold LinuxTimerManager.check
    rw [hthread]
    exact h

theorem Logged.callback (h : s.Logged) (htables : s.Tables) (calls : List Call) :
    (s.callback calls).Logged := by
  have hnext := htables.callback calls
  unfold LinuxTimerManager.callback at hnext ⊢
  cases hthread : s.thread with
  | calling id =>
    obtain ⟨hlive, hnot⟩ := htables.of_thread hthread rfl
    dsimp only
    rw [if_pos (htables.mem_callbacks (by simp [hthread, Phase.ids]))]
    have hran : ranIds (s.log ++ [.ran id]) = ranIds s.log ++ [id] := by simp [ranIds]
    apply Logged.performs
    · constructor
      case cancelled =>
        intro id' hid'
        exact h.cancelled id' (by simpa using hid')
      case dequeued =>
        intro id' hid'
        exact h.dequeued id' (by simpa using hid')
      case marked =>
        intro id' hid' hcancelled
        rcases hid' with hid' | hid'
        · exact h.marked id' (Or.inl hid') (by simpa using hcancelled)
        · cases hid'
      case ran =>
        intro id' hid'
        rw [hran] at hid'
        rcases List.mem_append.mp hid' with hid' | hid'
        · obtain ⟨hlt, hout, -⟩ := h.ran id' hid'
          exact ⟨hlt, hout, by simp, by simp⟩
        · obtain rfl := List.mem_singleton.mp hid'
          exact ⟨htables.fresh id' hlive, hnot, by simp, by simp⟩
      case spared =>
        intro id' heq
        cases heq
      case once =>
        rw [hran]
        have hnew : id ∉ ranIds s.log := fun hmem => (h.ran id hmem).2.2.2 hthread
        exact List.concat_eq_append ▸ h.once.concat hnew
      case honest => exact everyEntry_concat.mpr ⟨h.honest, h.spared id hthread⟩
    · refine htables.move htables.running rfl rfl rfl (fun _ => by simp) ?_
      rw [hthread, Phase.ids, Phase.ids]
  | waiting | dequeued id | called id => exact h

theorem Logged.remove (h : s.Logged) (htables : s.Tables) : s.remove.Logged := by
  cases hthread : s.thread with
  | called id =>
    obtain ⟨hlive, -⟩ := htables.of_thread hthread rfl
    unfold LinuxTimerManager.remove
    rw [hthread]
    exact h.removeTimer (fun _ _ hmarked => hmarked) hlive
  | waiting | dequeued id | calling id =>
    unfold LinuxTimerManager.remove
    rw [hthread]
    exact h

theorem Logged.step (h : s.Logged) (htables : s.Tables) (e : Step) : (s.step e).Logged := by
  unfold LinuxTimerManager.step
  rw [if_neg (by simp [htables.running])]
  cases e with
  | call c => exact h.perform htables c
  | expire id => exact h.timerSignalHandler id
  | dequeue id => exact h.dequeue htables id
  | check => exact h.check htables
  | callback calls => exact h.callback htables calls
  | remove => exact h.remove htables

end Callbacks

end LinuxTimerManager
end Pddm

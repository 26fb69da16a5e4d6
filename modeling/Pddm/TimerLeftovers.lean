import Pddm.LinuxTimerManager

/-!
# What cancelled timers leave behind

A timer that is cancelled before the thread looks at it leaves nothing. The mark of one that is
cancelled while its callback runs is never cleared.
-/
namespace Pddm.LinuxTimerManager

section Leftovers
variable {s : LinuxTimerManager} {id : ℕ}

/-- Nothing is left of removed timers, and the running timer will leave nothing either. -/
structure Calm (s : LinuxTimerManager) : Prop where
  tidy : s.Tidy
  unmarked : ∀ id, s.Running id → id ∉ s.cancelledTimers
  known : ∀ id ∈ s.cancelledTimers, id < s.nextId

/-- The mark of a timer that runs or has been removed, which nothing clears any more. -/
structure Stained (s : LinuxTimerManager) (id : ℕ) : Prop where
  marked : id ∈ s.cancelledTimers
  passed : s.Running id ∨ .removed id ∈ s.log

theorem calm_initial : Calm initial := by
  constructor <;> simp [initial, Tidy]

theorem Calm.perform (h : s.Calm) (htables : s.Tables) {c : Call}
    (hspares : ∀ id, s.Running id → c ≠ .cancel id) : (s.perform c).Calm := by
  cases c with
  | register =>
    constructor
    case tidy =>
      intro id hid
      have hbefore : .removed id ∈ s.log := by
        simpa [LinuxTimerManager.perform, registerTimer] using hid
      obtain ⟨hhandles, hcallbacks, hcancelled⟩ := h.tidy id hbefore
      have hne : id ≠ s.nextId := ((htables.removed id).mp hbefore).1.ne
      simp [LinuxTimerManager.perform, registerTimer, hne, hhandles, hcallbacks, hcancelled]
    case unmarked => exact h.unmarked
    case known =>
      intro id hid
      exact (h.known id hid).trans (Nat.lt_succ_self _)
  | cancel id =>
    have hmem {id' : ℕ} (hid' : id' ∈ (s.cancelTimer id).cancelledTimers) :
        id' ∈ s.cancelledTimers ∨ id' = id ∧ id ∈ s.timerHandles := by
      unfold cancelTimer at hid'
      dsimp only at hid'
      split_ifs at hid' with hlive
      · rcases Finset.mem_insert.mp hid' with rfl | hid'
        · exact Or.inr ⟨rfl, hlive⟩
        · exact Or.inl hid'
      · exact Or.inl hid'
    constructor
    case tidy =>
      intro id' hid'
      have hbefore : .removed id' ∈ s.log := by
        simp only [LinuxTimerManager.perform, cancelTimer] at hid'
        split_ifs at hid' <;> simpa using hid'
      obtain ⟨hhandles, hcallbacks, hcancelled⟩ := h.tidy id' hbefore
      refine ⟨hhandles, hcallbacks, fun hmarked => ?_⟩
      rcases hmem hmarked with hmarked | ⟨rfl, hlive⟩
      · exact hcancelled hmarked
      · exact hhandles hlive
    case unmarked =>
      intro id' hrunning hmarked
      rcases hmem hmarked with hmarked | ⟨rfl, -⟩
      · exact h.unmarked id' hrunning hmarked
      · exact hspares id' hrunning rfl
    case known =>
      intro id' hid'
      rcases hmem hid' with hid' | ⟨rfl, hlive⟩
      · exact h.known id' hid'
      · exact htables.fresh id' hlive

theorem Stained.perform (h : s.Stained id) (c : Call) : (s.perform c).Stained id := by
  cases c with
  | register => exact ⟨h.marked, h.passed.imp_right fun hid => List.mem_append_left _ hid⟩
  | cancel id' =>
    constructor
    case marked =>
      simp only [LinuxTimerManager.perform, cancelTimer]
      split_ifs
      · exact Finset.mem_insert_of_mem h.marked
      · exact h.marked
    case passed =>
      refine h.passed.imp_right fun hid => ?_
      simp only [LinuxTimerManager.perform, cancelTimer]
      split_ifs
      · exact List.mem_append_left _ hid
      · exact hid

@[simp] theorem perform_thread (s : LinuxTimerManager) (c : Call) :
    (s.perform c).thread = s.thread := by
  cases c <;> rfl

theorem Calm.performs (h : s.Calm) (htables : s.Tables) {calls : List Call}
    (hspares : ∀ id, s.Running id → .cancel id ∉ calls) :
    (calls.foldl LinuxTimerManager.perform s).Calm := by
  induction calls generalizing s with
  | nil => exact h
  | cons c calls ih =>
    apply ih
    · refine h.perform htables fun id hrunning heq => hspares id hrunning ?_
      simp [heq]
    · exact htables.perform c
    · intro id hrunning hmem
      rw [Running, perform_thread] at hrunning
      exact hspares id hrunning (List.mem_cons_of_mem _ hmem)

theorem Stained.performs (h : s.Stained id) (calls : List Call) :
    (calls.foldl LinuxTimerManager.perform s).Stained id := by
  induction calls generalizing s with
  | nil => exact h
  | cons c calls ih => exact ih (h.perform c)

theorem stained_of_cancel (hlive : id ∈ s.timerHandles) (hrunning : s.Running id)
    {calls : List Call} (hmem : .cancel id ∈ calls) :
    (calls.foldl perform s).Stained id := by
  induction calls generalizing s with
  | nil => cases hmem
  | cons c calls ih =>
    rw [List.foldl_cons]
    rcases List.mem_cons.mp hmem with rfl | hmem
    · apply Stained.performs
      constructor
      · simp [perform, cancelTimer, hlive]
      · exact Or.inl hrunning
    · refine ih ?_ ?_ hmem
      · cases c with
        | register => exact Finset.mem_insert_of_mem hlive
        | cancel id' => exact hlive
      · rw [Running, perform_thread]
        exact hrunning

theorem Calm.timerSignalHandler (h : s.Calm) (id : ℕ) : (s.timerSignalHandler id).Calm := by
  unfold LinuxTimerManager.timerSignalHandler
  split_ifs
  · exact ⟨h.tidy, h.unmarked, h.known⟩
  · exact h

theorem Calm.dequeue (h : s.Calm) (id : ℕ) : (s.dequeue id).Calm := by
  unfold LinuxTimerManager.dequeue
  split
  · split_ifs
    · constructor
      case tidy =>
        intro id' hid'
        exact h.tidy id' (by simpa using hid')
      case unmarked =>
        rintro id' (heq | heq) <;> cases heq
      case known => exact h.known
    · exact h
  · exact h

theorem Calm.removeTimer (h : s.Calm) (hlive : id ∈ s.timerHandles)
    {marks : Finset ℕ} (hsub : marks ⊆ s.cancelledTimers) (hid : id ∉ marks) :
    (removeTimer id { s with cancelledTimers := marks }).Calm := by
  unfold LinuxTimerManager.removeTimer
  dsimp only
  rw [if_pos hlive]
  constructor
  case tidy =>
    intro id' hid'
    rcases List.mem_append.mp hid' with hid' | hid'
    · obtain ⟨hhandles, hcallbacks, hcancelled⟩ := h.tidy id' hid'
      exact ⟨fun hmem => hhandles (Finset.mem_of_mem_erase hmem),
        fun hmem => hcallbacks (Finset.mem_of_mem_erase hmem), fun hmem => hcancelled (hsub hmem)⟩
    · cases List.mem_singleton.mp hid'
      exact ⟨Finset.notMem_erase _ _, Finset.notMem_erase _ _, hid⟩
  case unmarked =>
    rintro id' (heq | heq) <;> cases heq
  case known => exact fun id' hid' => h.known id' (hsub hid')

theorem Calm.check (h : s.Calm) (htables : s.Tables) : s.check.Calm := by
  cases hthread : s.thread with
  | dequeued id =>
    obtain ⟨hlive, -⟩ := htables.of_thread hthread rfl
    unfold LinuxTimerManager.check
    rw [hthread]
    dsimp only
    split_ifs with hcancelled
    · rw [← hthread]
      exact h.removeTimer hlive (Finset.erase_subset _ _) (Finset.notMem_erase _ _)
    · refine ⟨h.tidy, ?_, h.known⟩
      rintro id' (heq | heq)
      · cases heq
        exact hcancelled
      · cases heq
  | waiting | calling id | called id =>
    unfold LinuxTimerManager.check
    rw [hthread]
    exact h

theorem Calm.remove (h : s.Calm) (htables : s.Tables) : s.remove.Calm := by
  cases hthread : s.thread with
  | called id =>
    obtain ⟨hlive, -⟩ := htables.of_thread hthread rfl
    unfold LinuxTimerManager.remove
    rw [hthread]
    exact h.removeTimer hlive (Finset.Subset.refl _) (h.unmarked id (Or.inr hthread))
  | waiting | dequeued id | calling id =>
    unfold LinuxTimerManager.remove
    rw [hthread]
    exact h

theorem Calm.callback (h : s.Calm) (htables : s.Tables) {calls : List Call}
    (hspares : ∀ id, s.thread = .calling id → .cancel id ∉ calls) : (s.callback calls).Calm := by
  cases hthread : s.thread with
  | calling id =>
    have hcallback : id ∈ s.timerCallbacks := htables.mem_callbacks (by simp [hthread, Phase.ids])
    unfold LinuxTimerManager.callback
    rw [hthread]
    dsimp only
    rw [if_pos hcallback]
    apply Calm.performs
    · constructor
      case tidy =>
        intro id' hid'
        exact h.tidy id' (by simpa using hid')
      case unmarked =>
        rintro id' (heq | heq)
        · cases heq
        · cases heq
          exact h.unmarked id (Or.inl hthread)
      case known => exact h.known
    · refine htables.move htables.running rfl rfl rfl (fun _ => by simp) ?_
      rw [hthread, Phase.ids, Phase.ids]
    · rintro id' (heq | heq)
      · cases heq
      · cases heq
        exact hspares id hthread
  | waiting | dequeued id | called id =>
    unfold LinuxTimerManager.callback
    rw [hthread]
    exact h

theorem Calm.step (h : s.Calm) (htables : s.Tables) {e : Step} (hspares : s.SparesRunning e) :
    (s.step e).Calm := by
  unfold LinuxTimerManager.step
  rw [if_neg (by simp [htables.running])]
  cases e with
  | call c => exact h.perform htables hspares
  | expire id => exact h.timerSignalHandler id
  | dequeue id => exact h.dequeue id
  | check => exact h.check htables
  | callback calls => exact h.callback htables hspares
  | remove => exact h.remove htables

theorem Stained.removeTimer (h : s.Stained id) {id' : ℕ} {marks : Finset ℕ}
    (hlive : id' ∈ s.timerHandles) (hrunning : s.Running id → id = id') (hmarks : id ∈ marks) :
    (removeTimer id' { s with cancelledTimers := marks }).Stained id := by
  unfold LinuxTimerManager.removeTimer
  dsimp only
  rw [if_pos hlive]
  refine ⟨hmarks, Or.inr ?_⟩
  rcases h.passed with hpassed | hpassed
  · simp [hrunning hpassed]
  · exact List.mem_append_left _ hpassed

theorem Stained.step (h : s.Stained id) (htables : s.Tables) (e : Step) :
    (s.step e).Stained id := by
  unfold LinuxTimerManager.step
  rw [if_neg (by simp [htables.running])]
  cases e with
  | call c => exact h.perform c
  | expire id' =>
    dsimp only
    unfold LinuxTimerManager.timerSignalHandler
    split_ifs
    · exact ⟨h.marked, h.passed⟩
    · exact h
  | dequeue id' =>
    dsimp only
    unfold LinuxTimerManager.dequeue
    cases hthread : s.thread with
    | waiting =>
      dsimp only
      split_ifs
      · refine ⟨h.marked, Or.inr (List.mem_append_left _ ?_)⟩
        apply h.passed.resolve_left
        rintro (heq | heq) <;> simp [hthread] at heq
      · exact h
    | dequeued id'' | calling id'' | called id'' => exact h
  | check =>
    dsimp only
    cases hthread : s.thread with
    | dequeued id' =>
      obtain ⟨hlive, -⟩ := htables.of_thread hthread rfl
      have hnot : ¬ s.Running id := by
        rintro (heq | heq) <;> simp [hthread] at heq
      have hremoved : .removed id ∈ s.log := h.passed.resolve_left hnot
      unfold LinuxTimerManager.check
      rw [hthread]
      dsimp only
      split_ifs
      · rw [← hthread]
        refine h.removeTimer hlive (fun hrunning => absurd hrunning hnot) ?_
        refine Finset.mem_erase.mpr ⟨?_, h.marked⟩
        rintro rfl
        exact ((htables.removed id).mp hremoved).2 hlive
      · exact ⟨h.marked, Or.inr hremoved⟩
    | waiting | calling id' | called id' =>
      unfold LinuxTimerManager.check
      rw [hthread]
      exact h
  | callback calls =>
    dsimp only
    cases hthread : s.thread with
    | calling id' =>
      have hcallback : id' ∈ s.timerCallbacks :=
        htables.mem_callbacks (by simp [hthread, Phase.ids])
      unfold LinuxTimerManager.callback
      rw [hthread]
      dsimp only
      rw [if_pos hcallback]
      apply Stained.performs
      refine ⟨h.marked, ?_⟩
      rcases h.passed with (heq | heq) | hremoved
      · rw [hthread] at heq
        cases heq
        exact Or.inl (Or.inr rfl)
      · rw [hthread] at heq
        cases heq
      · exact Or.inr (List.mem_append_left _ hremoved)
    | waiting | dequeued id' | called id' =>
      unfold LinuxTimerManager.callback
      rw [hthread]
      exact h
  | remove =>
    dsimp only
    cases hthread : s.thread with
    | called id' =>
      obtain ⟨hlive, -⟩ := htables.of_thread hthread rfl
      unfold LinuxTimerManager.remove
      rw [hthread]
      refine h.removeTimer hlive ?_ h.marked
      rintro (heq | heq)
      · rw [hthread] at heq
        cases heq
      · rw [hthread] at heq
        cases heq
        rfl
    | waiting | dequeued id' | calling id' =>
      unfold LinuxTimerManager.remove
      rw [hthread]
      exact h

theorem stained_of_not_spares (htables : s.Tables) {e : Step} (h : ¬ s.SparesRunning e) :
    ∃ id, (s.step e).Stained id := by
  have hlive {id : ℕ} (hrunning : s.Running id) : id ∈ s.timerHandles := by
    rw [htables.live]
    apply List.mem_append_right
    rcases hrunning with heq | heq <;> simp [heq, Phase.ids]
  unfold LinuxTimerManager.step
  rw [if_neg (by simp [htables.running])]
  cases e with
  | call c =>
    simp only [SparesRunning, not_forall, not_not] at h
    obtain ⟨id, hrunning, rfl⟩ := h
    exact ⟨id, stained_of_cancel (hlive hrunning) hrunning (List.mem_singleton_self _)⟩
  | callback calls =>
    simp only [SparesRunning, not_forall, not_not] at h
    obtain ⟨id, hthread, hmem⟩ := h
    refine ⟨id, ?_⟩
    dsimp only
    unfold LinuxTimerManager.callback
    rw [hthread]
    dsimp only
    rw [if_pos (htables.mem_callbacks (by simp [hthread, Phase.ids]))]
    refine stained_of_cancel ?_ (Or.inr rfl) hmem
    exact hlive (Or.inl hthread)
  | expire id => exact absurd trivial h
  | dequeue id => exact absurd trivial h
  | check => exact absurd trivial h
  | remove => exact absurd trivial h

end Leftovers

section Runs
variable {s : LinuxTimerManager} {steps : List Step}

theorem Stained.run {id : ℕ} (h : s.Stained id) (htables : s.Tables) (steps : List Step) :
    (steps.foldl LinuxTimerManager.step s).Stained id := by
  induction steps generalizing s with
  | nil => exact h
  | cons e steps ih => exact ih (h.step htables e) (htables.step e)

/-- A run that ends with the thread at rest was tidy only if it spared the running timers. -/
theorem along_of_throughout (htables : s.Tables) (hrest : (steps.foldl step s).thread = .waiting)
    (htidy : Throughout step Tidy s steps) : Along step SparesRunning s steps := by
  induction steps generalizing s with
  | nil => trivial
  | cons e steps ih =>
    refine ⟨?_, ih (htables.step e) hrest htidy.2⟩
    by_contra hnot
    obtain ⟨id, hstained⟩ := stained_of_not_spares htables hnot
    have hlast := hstained.run (htables.step e) steps
    have hend : Tidy (steps.foldl step (s.step e)) := htidy.2.last
    refine (hend id (hlast.passed.resolve_left ?_)).2.2 hlast.marked
    rw [List.foldl_cons] at hrest
    rintro (heq | heq) <;> simp [hrest] at heq

theorem tables_logged_run (steps : List Step) :
    (steps.foldl step initial).Tables ∧ (steps.foldl step initial).Logged := by
  have h : Throughout step (fun s => s.Tables ∧ s.Logged) initial steps :=
    throughout_of_step ⟨tables_initial, logged_initial⟩ fun s e h => ⟨h.1.step e, h.2.step h.1 e⟩
  exact h.last

theorem throughout_tidy (h : Along step SparesRunning initial steps) :
    Throughout step Tidy initial steps := by
  have hcalm : Throughout step (fun s => s.Tables ∧ s.Calm) initial steps :=
    h.throughout ⟨tables_initial, calm_initial⟩ fun s e hs hspares =>
      ⟨hs.1.step e, hs.2.step hs.1 hspares⟩
  exact hcalm.mono fun s hs => hs.2.tidy

end Runs

/-- In every run the thread finds the callbacks that it looks up, each callback runs at most once,
and none runs whose timer was cancelled before it was dequeued. Nothing is left of a removed timer
as long as no timer is cancelled while its callback runs, and otherwise its mark is left once it
has been removed. -/
theorem timers_law (steps : List Step) :
    (steps.foldl step initial).terminated = false ∧
      (ranIds (steps.foldl step initial).log).Nodup ∧
      EveryEntry RunsSpared (steps.foldl step initial).log ∧
      (Along step SparesRunning initial steps → Throughout step Tidy initial steps) ∧
      ((steps.foldl step initial).thread = .waiting →
        Throughout step Tidy initial steps → Along step SparesRunning initial steps) := by
  obtain ⟨htables, hlogged⟩ := tables_logged_run steps
  exact ⟨htables.running, hlogged.once, hlogged.honest, throughout_tidy,
    along_of_throughout tables_initial⟩

/-- A round times out: the callback cancels its own timer and registers the next one. -/
theorem round_timeout_leaves_mark :
    let s := [.call .register, .expire 0, .dequeue 0, .check, .callback [.cancel 0, .register],
      .remove].foldl step initial
    .removed 0 ∈ s.log ∧ 0 ∈ s.cancelledTimers ∧ ¬ Tidy s := by
  intro s
  have hremoved : .removed 0 ∈ s.log := by decide
  have hmarked : 0 ∈ s.cancelledTimers := by decide
  exact ⟨hremoved, hmarked, fun htidy => (htidy 0 hremoved).2.2 hmarked⟩

end Pddm.LinuxTimerManager

import Pddm.AccountRuns
import Pddm.AggregateNumbers

/-!
# The aggregate of a query

A meter that starts each query once has one aggregate for it, made up of its own values and of
messages that it has received.
-/
namespace Pddm

def Action.sumNumber : Action → Option ℤ
  | .computeAggregate queryNum _ | .sendAggregate queryNum _ _ => some queryNum
  | _ => none

def entriesFor (kind : Action → Bool) (queryNum : ℤ) (trace : List Action) : List Action :=
  trace.filter fun a => kind a && decide (a.sumNumber = some queryNum)

theorem entriesFor_concat (kind : Action → Bool) (queryNum : ℤ) (trace : List Action) (a : Action) :
    entriesFor kind queryNum (trace ++ [a]) = entriesFor kind queryNum trace ++
      if kind a ∧ a.sumNumber = some queryNum then [a] else [] := by
  rw [entriesFor, List.filter_append]
  congr 1
  simp [List.filter_cons]

theorem mem_startedQueries_of_lastStart {trace : List Action} {queryNum : ℤ}
    (h : lastStart trace = some queryNum) : queryNum ∈ startedQueries trace := by
  induction trace using List.reverseRecOn with
  | nil => cases h
  | append_singleton trace a ih =>
    rw [lastStart_concat] at h
    rw [startedQueries_append]
    split at h
    · obtain rfl := Option.some.inj h
      exact List.mem_append_right _ (List.mem_singleton_self _)
    · exact List.mem_append_left _ (ih h)

theorem concat_of_not_start (trace : List Action) {a : Action} (h : a.isStart = false)
    (kind : Action → Bool) : lastStart (trace ++ [a]) = lastStart trace ∧
      startedQueries (trace ++ [a]) = startedQueries trace ∧
      countSince kind (trace ++ [a]) =
        if kind a then countSince kind trace + 1 else countSince kind trace := by
  rw [lastStart_concat, startedQueries_append, countSince_concat]
  cases a with
  | startQuery => cases h
  | _ => simp [startedQueries]

/-- Each entry of the kind is the first of it since the query was started last. -/
def FirstOfQuery (kind : Action → Bool) : List Action → Prop :=
  EveryEntry fun before a => kind a = true →
    countSince kind before = 0 ∧ a.sumNumber = lastStart before

/-- Where no query is started twice, there is one entry for each. -/
theorem FirstOfQuery.length_le_one {kind : Action → Bool}
    (hkind : ∀ queryNum, kind (.startQuery queryNum) = false) {trace : List Action}
    (h : FirstOfQuery kind trace) (hstarts : (startedQueries trace).Nodup) (queryNum : ℤ) :
    (entriesFor kind queryNum trace).length ≤ 1 ∧
      (queryNum ∉ startedQueries trace → entriesFor kind queryNum trace = []) ∧
      (lastStart trace = some queryNum →
        (entriesFor kind queryNum trace).length ≤ countSince kind trace) := by
  induction trace using List.reverseRecOn with
  | nil => simp [entriesFor, lastStart]
  | append_singleton trace a ih =>
    obtain ⟨htrace, ha⟩ := everyEntry_concat.mp h
    have hsplit := List.nodup_append.mp (startedQueries_append trace [a] ▸ hstarts)
    obtain ⟨hone, hnone, hlast⟩ := ih htrace hsplit.1
    rw [entriesFor_concat]
    cases hstart : a.isStart with
    | true =>
      cases a with
      | startQuery number =>
        rw [lastStart_concat, startedQueries_append, countSince_concat]
        simp only [hkind, Bool.false_eq_true, false_and, if_false, List.append_nil]
        refine ⟨hone, fun hnew => hnone fun hmem => hnew (List.mem_append_left _ hmem),
          fun hnum => ?_⟩
        obtain rfl := Option.some.inj hnum
        have hnew : number ∉ startedQueries trace := fun hmem =>
          hsplit.2.2 number hmem number (List.mem_singleton_self number) rfl
        simp [hnone hnew]
      | _ => cases hstart
    | false =>
      obtain ⟨hlastStart, hstarted, hcount⟩ := concat_of_not_start trace hstart kind
      rw [hlastStart, hstarted, hcount]
      by_cases hk : kind a = true
      · obtain ⟨hzero, hnumber⟩ := ha hk
        by_cases hnum : a.sumNumber = some queryNum
        · have hstarted : lastStart trace = some queryNum := hnumber.symm.trans hnum
          have hempty : (entriesFor kind queryNum trace).length = 0 := by
            have hle := hlast hstarted
            omega
          rw [if_pos ⟨hk, hnum⟩, if_pos hk, List.length_append, hempty]
          refine ⟨le_rfl, fun hnew => ?_, fun _ => by simp⟩
          exact absurd (mem_startedQueries_of_lastStart hstarted) hnew
        · rw [if_neg (by simp [hnum]), List.append_nil, if_pos hk]
          exact ⟨hone, hnone, fun hstarted => absurd (hnumber.trans hstarted) hnum⟩
      · rw [if_neg (by simp [hk]), List.append_nil, if_neg hk]
        exact ⟨hone, hnone, hlast⟩

def Action.values : Action → List ValueContribution
  | .computeAggregate _ values => values
  | _ => []

def ownValues (queryNum : ℤ) (trace : List Action) : List ValueContribution :=
  (entriesFor Action.isCompute queryNum trace).flatMap Action.values

theorem isCompute_of_mem_sinceStart {trace : List Action}
    (h : countSince Action.isCompute trace = 0) :
    ∀ a ∈ sinceStart trace, a.isCompute = false := by
  induction trace using List.reverseRecOn with
  | nil => simp [sinceStart]
  | append_singleton trace a ih =>
    rw [countSince_concat] at h
    rw [sinceStart_concat]
    intro b hb
    cases a with
    | startQuery | startAggregate => cases hb
    | computeAggregate => simp [Action.isCompute] at h
    | _ =>
      rcases List.mem_append.mp hb with hb | hb
      · exact ih (by simpa [Action.isCompute] using h) b hb
      · rw [List.mem_singleton.mp hb]
        rfl

theorem sum_tally_of_forall {single : Bool} {entries : List Action}
    (h : ∀ a ∈ entries, a.isCompute = false) : (entries.map (Action.tally single)).sum =
      ((addedMessages entries).map (AggregationMessage.tally single)).sum := by
  induction entries with
  | nil => rfl
  | cons a entries ih =>
    have hrest := ih fun b hb => h b (List.mem_cons_of_mem a hb)
    have ha := h a List.mem_cons_self
    rw [List.map_cons, List.sum_cons, hrest]
    cases a <;> simp_all [Action.isCompute, Action.tally, addedMessages]

/-- The books of a meter that starts each query once, has one aggregate for each start, and adds
messages to their own query only. -/
structure SoundBooks (env : ProtocolEnv) (requests : ℤ → QueryRequest)
    (arrived : Multiset AggregationMessage) (trace : List Action) : Prop
    extends InBooks env requests arrived trace where
  starts : (startedQueries trace).Nodup
  once : SendsOnce trace
  own : AddsOwnQuery trace

theorem eq_singleton_of_mem {α : Type*} {l : List α} {a : α} (hone : l.length ≤ 1) (ha : a ∈ l) :
    l = [a] := by
  obtain ⟨b, rfl⟩ := List.length_eq_one_iff.mp (hone.antisymm (List.length_pos_of_mem ha))
  rw [List.mem_singleton.mp ha]

namespace SoundBooks
variable {env : ProtocolEnv} {requests : ℤ → QueryRequest}
  {arrived : Multiset AggregationMessage} {trace : List Action}

theorem firstCompute (h : SoundBooks env requests arrived trace) :
    FirstOfQuery Action.isCompute trace := by
  intro before a after htrace hcompute
  refine ⟨(h.once before a after htrace).1 hcompute, ?_⟩
  have haccounts := h.entries before a after htrace
  cases a with
  | computeAggregate queryNum values => exact haccounts.1.symm
  | _ => cases hcompute

theorem firstSend (h : SoundBooks env requests arrived trace) :
    FirstOfQuery Action.isSend trace := by
  intro before a after htrace hsend
  refine ⟨(h.once before a after htrace).2 hsend, ?_⟩
  have haccounts := h.entries before a after htrace
  cases a with
  | sendAggregate queryNum aggregate parentId => exact haccounts.last.symm
  | _ => cases hsend

theorem sendsSum (h : SoundBooks env requests arrived trace) {queryNum : ℤ}
    {aggregate : AggregationMessage} {parentId : ℤ}
    (hsend : .sendAggregate queryNum aggregate parentId ∈ trace) :
    ∃ before, before <+: trace ∧ SendsSum env requests before queryNum aggregate parentId := by
  obtain ⟨before, after, htrace⟩ := List.append_of_mem hsend
  exact ⟨before, ⟨_, htrace.symm⟩, h.entries before _ after htrace⟩

theorem aggregate_unique (h : SoundBooks env requests arrived trace) {queryNum : ℤ}
    {aggregate aggregate' : AggregationMessage} {parentId parentId' : ℤ}
    (hsend : .sendAggregate queryNum aggregate parentId ∈ trace)
    (hsend' : .sendAggregate queryNum aggregate' parentId' ∈ trace) : aggregate = aggregate' := by
  have hone := (h.firstSend.length_le_one (fun _ => rfl) h.starts queryNum).1
  have hmem {aggregate : AggregationMessage} {parentId : ℤ}
      (hsend : .sendAggregate queryNum aggregate parentId ∈ trace) :
      .sendAggregate queryNum aggregate parentId ∈ entriesFor Action.isSend queryNum trace :=
    List.mem_filter.mpr ⟨hsend, by simp [Action.isSend, Action.sumNumber]⟩
  have hentries := eq_singleton_of_mem hone (hmem hsend)
  have hsame := hmem hsend'
  rw [hentries, List.mem_singleton] at hsame
  exact (Action.sendAggregate.inj hsame).2.1.symm

theorem ownValues_eq (h : SoundBooks env requests arrived trace) (queryNum : ℤ) :
    ownValues queryNum trace = [] ∨ ∃ values, .computeAggregate queryNum values ∈ trace ∧
      values.Nodup ∧ ownValues queryNum trace = values := by
  have hone := (h.firstCompute.length_le_one (fun _ => rfl) h.starts queryNum).1
  rcases List.eq_nil_or_concat (entriesFor Action.isCompute queryNum trace) with hnil | ⟨_, a, hcons⟩
  · exact .inl (by simp [ownValues, hnil])
  · have ha : a ∈ entriesFor Action.isCompute queryNum trace := by simp [hcons]
    have hentries := eq_singleton_of_mem hone ha
    obtain ⟨hmem, hkind⟩ := List.mem_filter.mp ha
    cases a with
    | computeAggregate number values =>
      obtain rfl : number = queryNum := by simpa [Action.isCompute, Action.sumNumber] using hkind
      obtain ⟨before, after, htrace⟩ := List.append_of_mem hmem
      exact .inr ⟨values, hmem, (h.entries before _ after htrace).2,
        by simp [ownValues, hentries, Action.values]⟩
    | _ => simp [Action.isCompute] at hkind

theorem ownValues_of_compute (h : SoundBooks env requests arrived trace) {queryNum : ℤ}
    {values : List ValueContribution} (hcompute : .computeAggregate queryNum values ∈ trace) :
    ownValues queryNum trace = values := by
  have hone := (h.firstCompute.length_le_one (fun _ => rfl) h.starts queryNum).1
  have hmem : .computeAggregate queryNum values ∈ entriesFor Action.isCompute queryNum trace :=
    List.mem_filter.mpr ⟨hcompute, by simp [Action.isCompute, Action.sumNumber]⟩
  rw [ownValues, eq_singleton_of_mem hone hmem]
  simp [Action.values]

/-- What is sent adds up the own values and messages for the query that were received. -/
theorem aggregate_eq (h : SoundBooks env requests arrived trace) {queryNum : ℤ}
    {aggregate : AggregationMessage} {parentId : ℤ}
    (hsend : .sendAggregate queryNum aggregate parentId ∈ trace) :
    ∃ received : List AggregationMessage, received.Sublist (addedMessages trace) ∧ (∀ m ∈ received, m.queryNum = queryNum) ∧
      aggregate.tally (requests queryNum).requestType.isSingleValuedQuery =
        ownTally (requests queryNum).requestType.isSingleValuedQuery (ownValues queryNum trace) +
          (0, 1) + (received.map (AggregationMessage.tally
            (requests queryNum).requestType.isSingleValuedQuery)).sum := by
  obtain ⟨before, hbefore, hsum⟩ := h.sendsSum hsend
  obtain ⟨earlier, values, rfl, htally⟩ := hsum.sum
  have hcompute : .computeAggregate queryNum values ∈ trace :=
    hbefore.subset (List.mem_append_right _ (List.mem_singleton_self _))
  have hzero : countSince Action.isCompute earlier = 0 := by
    obtain ⟨after, htrace⟩ := hbefore
    exact (h.once earlier (.computeAggregate queryNum values) after (by simp [← htrace])).1 rfl
  refine ⟨addedMessages (sinceStart earlier), ?_, fun m hm => ?_, ?_⟩
  · have hsublist : (sinceStart earlier).Sublist trace :=
      (sinceStart_suffix earlier).sublist.trans
        ((List.prefix_append earlier _).trans hbefore).sublist
    exact hsublist.filterMap _
  · obtain ⟨a, ha, hadded⟩ := List.mem_filterMap.mp hm
    cases a with
    | addMessage number message =>
      obtain rfl := Option.some.inj hadded
      have hmem : .addMessage number message ∈ trace := hbefore.subset
        (List.mem_append_left _ ((sinceStart_suffix earlier).subset ha))
      refine (h.own number message hmem).trans (hsum.numbers number message ?_)
      rw [sinceStart_concat]
      exact List.mem_append_left _ ha
    | _ => cases hadded
  · rw [htally, tallySince_concat (by simp) (by simp), tallySince,
      sum_tally_of_forall (isCompute_of_mem_sinceStart hzero), h.ownValues_of_compute hcompute,
      Action.tally]
    abel

end SoundBooks
end Pddm

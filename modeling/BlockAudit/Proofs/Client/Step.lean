import BlockAudit.Proofs.Client.Log
import Mathlib.Data.List.Perm.Basic

/-!
What a step of a fetch does to the tasks that are left. Of the requests that are started, those that were never
sent are always the next to be sent, in list order.
-/
namespace BlockAudit.Client.Fetch

open Retry (Policy)

variable {α : Type} {collector : Collector ClientError α}

/-- The tasks that are left, those to be served next before those that wait. -/
def tasks (fetch : Fetch collector) : List Task :=
  fetch.ready ++ fetch.asleep.map Prod.snd

/-- What a step does: it wakes tasks, or it serves one, which sends its request, waits to send it again, or is
finished. -/
inductive Moves (job : Job α) (fetch : Fetch collector) : Fetch collector → Prop
  | wake {sleeper : Nat × Task} (hready : fetch.ready = []) (hmem : sleeper ∈ fetch.asleep) :
      Moves job fetch (fetch.wakeAt sleeper.1)
  | send {task : Task} {ready : List Task} {query : Query α} (hready : fetch.ready = task :: ready)
      (hquery : job.queries[task.index]? = some query) (hreply : task.reply = none) :
      Moves job fetch (send job { fetch with ready } task query)
  | retry {task : Task} {ready : List Task} {reply : Reply} {policy : Policy} {delay : Duration}
      (hready : fetch.ready = task :: ready) (hreply : task.reply = some reply)
      (hafter : task.policy.after? (attempt reply) = some (policy, delay)) :
      Moves job fetch (later { fetch with ready } delay { index := task.index, policy })
  | finish {task : Task} {ready : List Task} {query : Query α} {reply : Reply}
      (hready : fetch.ready = task :: ready) (hquery : job.queries[task.index]? = some query)
      (hreply : task.reply = some reply) (hafter : task.policy.after? (attempt reply) = none) :
      Moves job fetch (finish job { fetch with ready } task query reply)

section Step

variable {job : Job α} {fetch next : Fetch collector}

theorem moves_of_wake (hready : fetch.ready = []) (h : fetch.wake = some next) : Moves job fetch next := by
  unfold wake at h
  obtain ⟨time, htime, rfl⟩ := Option.map_eq_some_iff.mp h
  obtain ⟨sleeper, hsleeper, rfl⟩ := List.mem_map.mp (List.min?_mem htime)
  exact .wake hready hsleeper

theorem moves_serve {task : Task} {ready : List Task} {query : Query α} (hready : fetch.ready = task :: ready)
    (hquery : job.queries[task.index]? = some query) :
    Moves job fetch (serve job { fetch with ready } task query) := by
  unfold serve
  cases hreply : task.reply with
  | none => exact .send hready hquery hreply
  | some reply =>
    unfold receive
    dsimp only
    cases hafter : task.policy.after? (attempt reply) with
    | none => exact .finish hready hquery hreply hafter
    | some retry => exact .retry hready hreply hafter

theorem moves_of_step (h : fetch.step job = some next) : Moves job fetch next := by
  unfold step at h
  split at h
  · cases h
  · split at h
    · exact moves_of_wake ‹_› h
    · rename_i hready
      obtain ⟨query, hquery, rfl⟩ := Option.map_eq_some_iff.mp h
      exact moves_serve hready hquery

end Step

section Later

variable {fetch : Fetch collector} {delay : Duration} {task : Task}

theorem log_later : (fetch.later delay task).log = fetch.log := by
  unfold later
  split <;> rfl

theorem state_later : (fetch.later delay task).state = fetch.state := by
  unfold later
  split <;> rfl

theorem perm_tasks_later : (fetch.later delay task).tasks.Perm (task :: fetch.tasks) := by
  unfold later tasks
  split
  · exact List.Perm.refl _
  · dsimp only
    rw [List.map_append, ← List.append_assoc]
    exact List.perm_append_singleton _ _

theorem length_asleep_later : (fetch.later delay task).asleep.length ≤ fetch.asleep.length + 1 := by
  unfold later
  split
  · exact Nat.le_succ _
  · exact List.length_append.le

theorem perm_tasks_wakeAt (hready : fetch.ready = []) (time : Nat) :
    (fetch.wakeAt time).tasks.Perm fetch.tasks := by
  have hsplit := List.filter_append_perm (fun sleeper : Nat × Task => sleeper.1 == time) fetch.asleep
  unfold tasks wakeAt
  rw [hready, List.nil_append, ← List.map_append]
  exact hsplit.map Prod.snd

theorem length_asleep_wakeAt {sleeper : Nat × Task} (hmem : sleeper ∈ fetch.asleep) :
    (fetch.wakeAt sleeper.1).asleep.length < fetch.asleep.length :=
  List.length_filter_lt_length_iff_exists.mpr ⟨sleeper, hmem, by simp⟩

end Later

/-- The first `k` requests are sent, and those that are started after them are the next to be sent, in list
order. -/
structure InTurn (fetch : Fetch collector) (k : Nat) : Prop where
  sent_iff : ∀ i, Sent fetch.log i ↔ i < k
  le_started : k ≤ collector.started fetch.state
  fresh : (fetch.ready.map Task.index).filter (k ≤ ·) =
    List.range' k (collector.started fetch.state - k)
  asleep_lt : ∀ sleeper ∈ fetch.asleep, sleeper.2.index < k
  replied_lt : ∀ task ∈ fetch.ready, task.reply.isSome → task.index < k

section InTurn

variable {job : Job α} {fetch : Fetch collector} {k : Nat} {task : Task} {ready : List Task}

theorem index_newTasks (policy : Policy) (first last : Nat) :
    (newTasks policy first last).map Task.index = List.range' first (last - first) := by
  rw [newTasks, List.map_map]
  exact List.map_id _

theorem eq_of_mem_newTasks {policy : Policy} {first last : Nat} (h : task ∈ newTasks policy first last) :
    task = { index := task.index, policy } := by
  obtain ⟨index, -, rfl⟩ := List.mem_map.mp h
  rfl

theorem inTurn_start (job : Job α) : (start collector job).InTurn 0 where
  sent_iff i := by simp [start, Sent]
  le_started := Nat.zero_le _
  fresh := by
    rw [start, index_newTasks]
    simp
  asleep_lt _ h := absurd h List.not_mem_nil
  replied_lt task htask hreply := by
    rw [eq_of_mem_newTasks htask] at hreply
    cases hreply

theorem InTurn.wakeAt (h : fetch.InTurn k) (hready : fetch.ready = []) (time : Nat) :
    (fetch.wakeAt time).InTurn k where
  sent_iff := h.sent_iff
  le_started := h.le_started
  fresh := by
    have hnone := h.fresh
    rw [hready] at hnone
    refine Eq.trans ?_ hnone
    apply List.filter_eq_nil_iff.mpr
    intro i hi
    obtain ⟨task, htask, rfl⟩ := List.mem_map.mp hi
    obtain ⟨sleeper, hsleeper, rfl⟩ := List.mem_map.mp htask
    have hlt := h.asleep_lt sleeper (List.mem_filter.mp hsleeper).1
    simpa using hlt
  asleep_lt sleeper hmem := h.asleep_lt sleeper (List.mem_filter.mp hmem).1
  replied_lt task htask _ := by
    obtain ⟨sleeper, hsleeper, rfl⟩ := List.mem_map.mp htask
    exact h.asleep_lt sleeper (List.mem_filter.mp hsleeper).1

/-- A request that is sent may go on at any time. -/
theorem InTurn.later (h : fetch.InTurn k) (task : Task) (hlt : task.index < k) (delay : Duration) :
    (fetch.later delay task).InTurn k := by
  unfold Fetch.later
  split
  · refine ⟨h.sent_iff, h.le_started, ?_, h.asleep_lt, fun other hother hreply => ?_⟩
    · rw [List.map_cons, List.filter_cons_of_neg (by simpa using hlt)]
      exact h.fresh
    · rcases List.mem_cons.mp hother with rfl | hother
      · exact hlt
      · exact h.replied_lt other hother hreply
  · refine ⟨h.sent_iff, h.le_started, h.fresh, fun sleeper hsleeper => ?_, h.replied_lt⟩
    rcases List.mem_append.mp hsleeper with hbefore | hlast
    · exact h.asleep_lt sleeper hbefore
    · rw [List.mem_singleton.mp hlast]
      exact hlt

theorem InTurn.tail (h : fetch.InTurn k) (hready : fetch.ready = task :: ready) (hlt : task.index < k) :
    InTurn { fetch with ready } k := by
  refine ⟨h.sent_iff, h.le_started, ?_, h.asleep_lt, fun other hother => h.replied_lt other ?_⟩
  · have hfresh := h.fresh
    rw [hready, List.map_cons, List.filter_cons_of_neg (by simpa using hlt)] at hfresh
    exact hfresh
  · rw [hready]
    exact List.mem_cons_of_mem task hother

/-- A request that is not sent and is the next to be served is the first of those that are not sent. -/
theorem InTurn.index_eq (h : fetch.InTurn k) (hready : fetch.ready = task :: ready)
    (hge : k ≤ task.index) :
    task.index = k ∧ k < collector.started fetch.state ∧
      (ready.map Task.index).filter (k + 1 ≤ ·) =
        List.range' (k + 1) (collector.started fetch.state - (k + 1)) := by
  have hfresh := h.fresh
  rw [hready, List.map_cons, List.filter_cons_of_pos (by simpa using hge)] at hfresh
  have hstarted : k < collector.started fetch.state := by
    by_contra hle
    rw [Nat.sub_eq_zero_of_le (Nat.le_of_not_lt hle)] at hfresh
    cases hfresh
  rw [show collector.started fetch.state - k = collector.started fetch.state - (k + 1) + 1 by omega,
    List.range'_succ] at hfresh
  obtain ⟨hindex, hrest⟩ := List.cons_eq_cons.mp hfresh
  refine ⟨hindex, hstarted, ?_⟩
  rw [← List.filter_eq_self.mpr fun i hi => decide_eq_true (List.mem_range'_1.mp hi).1, ← hrest,
    List.filter_filter]
  refine List.filter_congr fun i _ => ?_
  rw [Bool.eq_iff_iff, Bool.and_eq_true, decide_eq_true_iff, decide_eq_true_iff]
  omega

/-- When a request is sent, all those before it in the list are sent. -/
theorem InTurn.index_le (h : fetch.InTurn k) (hready : fetch.ready = task :: ready) : task.index ≤ k := by
  rcases Nat.lt_or_ge task.index k with hlt | hge
  · exact hlt.le
  · exact (h.index_eq hready hge).1.le

theorem InTurn.sent (h : fetch.InTurn k) (hready : fetch.ready = task :: ready) (request : Request)
    (earlier : Nat) :
    ∃ k', task.index < k' ∧
      InTurn { fetch with ready, log := fetch.log ++ [.sent task.index request earlier] } k' := by
  rcases Nat.lt_or_ge task.index k with hlt | hge
  · refine ⟨k, hlt, { h.tail hready hlt with sent_iff := fun i => ?_ }⟩
    rw [sent_concat_sent, h.sent_iff]
    omega
  · obtain ⟨hindex, hstarted, hfresh⟩ := h.index_eq hready hge
    refine ⟨k + 1, by omega, fun i => ?_, hstarted, hfresh, fun sleeper hsleeper => ?_,
      fun other hother hreply => ?_⟩
    · rw [sent_concat_sent, h.sent_iff]
      omega
    · exact Nat.lt_succ_of_lt (h.asleep_lt sleeper hsleeper)
    · apply Nat.lt_succ_of_lt
      apply h.replied_lt other _ hreply
      rw [hready]
      exact List.mem_cons_of_mem task hother

/-- Requests that are started later come after all others. -/
theorem range'_append_filter {k first last : Nat} (hk : k ≤ first) (hle : first ≤ last) :
    List.range' k (first - k) ++ (List.range' first (last - first)).filter (k ≤ ·) =
      List.range' k (last - k) := by
  have hall := @List.range'_append_1 k (first - k) (last - first)
  rw [Nat.add_sub_cancel' hk] at hall
  rw [List.filter_eq_self.mpr fun i hi => decide_eq_true (hk.trans (List.mem_range'_1.mp hi).1), hall]
  congr 1
  omega

theorem InTurn.finish {query : Query α} {reply : Reply} (h : fetch.InTurn k)
    (hready : fetch.ready = task :: ready) (hlt : task.index < k)
    (hle : collector.started fetch.state ≤
      collector.started (collector.answer fetch.state task.index (query.read reply))) :
    (finish job { fetch with ready } task query reply).InTurn k := by
  have htail := h.tail hready hlt
  have hstarted := h.le_started
  refine ⟨fun i => ?_, hstarted.trans hle, ?_, h.asleep_lt, fun other hother hreply => ?_⟩
  · exact sent_concat_answered.trans (h.sent_iff i)
  · refine Eq.trans ?_ (range'_append_filter hstarted hle)
    rw [Fetch.finish, List.map_append, List.filter_append, index_newTasks, htail.fresh]
  · rcases List.mem_append.mp hother with hbefore | hadded
    · exact htail.replied_lt other hbefore hreply
    · rw [eq_of_mem_newTasks hadded] at hreply
      cases hreply

end InTurn

end BlockAudit.Client.Fetch

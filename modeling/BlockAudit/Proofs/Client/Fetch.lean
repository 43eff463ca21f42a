import BlockAudit.Proofs.Client.Collector
import BlockAudit.Proofs.Client.Step
import Mathlib.Algebra.BigOperators.Group.List.Basic

/-!
Serving a list of requests to the end, with any collector that keeps to what is assumed of one. Every event
follows those before it in the log, and the steps are enough: each uses up a part of what the requests and their
retries may cost.
-/
namespace BlockAudit.Client.Fetch

open Retry (Policy)

variable {α : Type} {collector : Collector ClientError α}

/-- The policy of a task is what the replies so far leave of that of the job. -/
def Remains (job : Job α) (log : List Event) (task : Task) : Prop :=
  ∀ query, job.queries[task.index]? = some query → ∃ failed, Tried job.policy failed task.policy ∧
    (sendings log task.index).map (job.transport query.request) = failed ++ task.reply.toList

section Remains

variable {job : Job α} {log : List Event} {task : Task} {query : Query α} {reply : Reply}

theorem remains_of_not_sent {index : Nat} (h : ¬ Sent log index) :
    Remains job log { index, policy := job.policy } := by
  intro query _
  refine ⟨[], tried_nil job.policy, ?_⟩
  rw [sendings_eq_nil h]
  rfl

theorem Remains.send (h : Remains job log task) (hreply : task.reply = none)
    (hquery : job.queries[task.index]? = some query) (n : Nat) :
    Remains job (log ++ [.sent task.index query.request n])
      { task with reply := some (job.transport query.request n) } := by
  intro other hother
  obtain rfl := Option.some.inj (hquery.symm.trans hother)
  obtain ⟨failed, htried, hreplies⟩ := h query hquery
  refine ⟨failed, htried, ?_⟩
  rw [hreply] at hreplies
  rw [sendings_concat_sent, if_pos rfl, List.map_append, hreplies, Option.toList_none, List.append_nil]
  rfl

theorem Remains.retry {policy : Policy} {delay : Duration} (h : Remains job log task)
    (hreply : task.reply = some reply)
    (hafter : task.policy.after? (attempt reply) = some (policy, delay)) :
    Remains job log { index := task.index, policy } := by
  intro query hquery
  obtain ⟨failed, htried, hreplies⟩ := h query hquery
  rw [hreply] at hreplies
  exact ⟨failed ++ [reply], htried.concat hafter, by simpa using hreplies⟩

theorem Remains.concat_sent {i n : Nat} {request : Request} (h : Remains job log task)
    (hne : task.index ≠ i) : Remains job (log ++ [.sent i request n]) task := by
  intro query hquery
  rw [sendings_concat_sent, if_neg hne.symm, List.append_nil]
  exact h query hquery

theorem Remains.concat_answered {i : Nat} (h : Remains job log task) :
    Remains job (log ++ [.answered i reply]) task := by
  intro query hquery
  rw [sendings_concat_answered]
  exact h query hquery

/-- A task that is finished has done what a call of its request does. -/
theorem Remains.run_eq (h : Remains job log task) (hquery : job.queries[task.index]? = some query)
    (hreply : task.reply = some reply) (hafter : task.policy.after? (attempt reply) = none) :
    let run := Retry.Call.run ⟨query.request, job.policy⟩ fun k =>
      attempt (job.transport query.request ((sendings log task.index).getD k 0))
    run.result = attempt reply ∧ run.sent.length = (sendings log task.index).length := by
  obtain ⟨failed, htried, hreplies⟩ := h query hquery
  rw [hreply, Option.toList_some] at hreplies
  have hlength := congrArg List.length hreplies
  rw [List.length_map, List.length_append, List.length_singleton] at hlength
  rw [hlength]
  apply htried.run_eq hafter
  intro k other hother
  rw [← hreplies, List.getElem?_map] at hother
  obtain ⟨n, hn, rfl⟩ := Option.map_eq_some_iff.mp hother
  rw [List.getD_eq_getElem?_getD, hn]
  rfl

end Remains

/-- What holds while a job is done: the tasks that are left are the requests that are started and not
answered. -/
structure Sound (job : Job α) (fetch : Fetch collector) : Prop where
  reaches : collector.Reaches maxUnderWay job.queries.length (outputs job fetch.log) fetch.state
  mem_iff : ∀ i, i ∈ fetch.tasks.map Task.index ↔
    i < collector.started fetch.state ∧ ¬ Answered fetch.log i
  answered_lt : ∀ i, Answered fetch.log i → i < collector.started fetch.state
  nodup : (fetch.tasks.map Task.index).Nodup
  length_add : fetch.tasks.length + (outputs job fetch.log).length = collector.started fetch.state
  remains : ∀ task ∈ fetch.tasks, Remains job fetch.log task
  inTurn : ∃ k, fetch.InTurn k

section Sound

variable {job : Job α} {fetch next : Fetch collector} {task : Task} {ready : List Task}

theorem tasks_start (job : Job α) :
    (start collector job).tasks = newTasks job.policy 0 (collector.started (start collector job).state) := by
  rw [tasks, start]
  exact List.append_nil _

theorem length_newTasks (policy : Policy) (first last : Nat) :
    (newTasks policy first last).length = last - first := by
  rw [newTasks, List.length_map, List.length_range']

theorem sound_start (job : Job α) : (start collector job).Sound job where
  reaches := .start
  mem_iff i := by
    rw [tasks_start, index_newTasks, List.mem_range'_1]
    simp [start, Answered]
  answered_lt i h := by simp [start, Answered] at h
  nodup := by
    rw [tasks_start, index_newTasks]
    exact List.nodup_range'
  length_add := by
    rw [tasks_start, length_newTasks]
    rfl
  remains task htask := by
    rw [tasks_start] at htask
    rw [eq_of_mem_newTasks htask]
    apply remains_of_not_sent
    simp [start, Sent]
  inTurn := ⟨0, inTurn_start job⟩

/-- What is left when the first task is served. -/
theorem Sound.served (hsound : fetch.Sound job) (hready : fetch.ready = task :: ready) :
    fetch.tasks = task :: tasks { fetch with ready } ∧
      task.index < collector.started fetch.state ∧ ¬ Answered fetch.log task.index ∧
      task.index ∉ (tasks { fetch with ready }).map Task.index ∧
      ((tasks { fetch with ready }).map Task.index).Nodup := by
  have htasks : fetch.tasks = task :: tasks { fetch with ready } := by
    rw [tasks, hready, List.cons_append]
    rfl
  have hnodup := hsound.nodup
  have hthere := hsound.mem_iff task.index
  rw [htasks, List.map_cons] at hthere hnodup
  obtain ⟨hstarted, hopen⟩ := hthere.mp List.mem_cons_self
  obtain ⟨hnew, hrest⟩ := List.nodup_cons.mp hnodup
  exact ⟨htasks, hstarted, hopen, hnew, hrest⟩

theorem Sound.wakeAt (hsound : fetch.Sound job) (hready : fetch.ready = []) (time : Nat) :
    (fetch.wakeAt time).Sound job := by
  have htasks := perm_tasks_wakeAt hready time
  have hindex := htasks.map Task.index
  obtain ⟨k, hturn⟩ := hsound.inTurn
  refine ⟨hsound.reaches, fun i => ?_, hsound.answered_lt, hindex.nodup_iff.mpr hsound.nodup, ?_, fun task htask => ?_,
    k, hturn.wakeAt hready time⟩
  · rw [hindex.mem_iff]
    exact hsound.mem_iff i
  · rw [htasks.length_eq]
    exact hsound.length_add
  · exact hsound.remains task (htasks.mem_iff.mp htask)

/-- As long as no request is answered, only what is left of the policies of the tasks matters. -/
theorem Sound.of_perm {later : Task} (hsound : fetch.Sound job) (hready : fetch.ready = task :: ready)
    (hindex : later.index = task.index)
    (htasks : next.tasks.Perm (later :: tasks { fetch with ready })) (hstate : next.state = fetch.state)
    (houtputs : outputs job next.log = outputs job fetch.log)
    (hanswered : ∀ i, Answered next.log i ↔ Answered fetch.log i)
    (hlater : Remains job next.log later)
    (hothers : ∀ other ∈ tasks { fetch with ready }, Remains job next.log other)
    (hturn : ∃ k, next.InTurn k) : next.Sound job := by
  have hperm : (next.tasks.map Task.index).Perm (fetch.tasks.map Task.index) := by
    rw [(hsound.served hready).1, List.map_cons, ← hindex]
    exact htasks.map Task.index
  refine ⟨?_, fun i => ?_, fun i hi => ?_, hperm.nodup_iff.mpr hsound.nodup, ?_, fun other hother => ?_,
    hturn⟩
  · rw [houtputs, hstate]
    exact hsound.reaches
  · rw [hperm.mem_iff, hstate, hanswered]
    exact hsound.mem_iff i
  · rw [hstate]
    exact hsound.answered_lt i ((hanswered i).mp hi)
  · have hlength := hperm.length_eq
    rw [List.length_map, List.length_map] at hlength
    rw [hlength, houtputs, hstate]
    exact hsound.length_add
  · rcases List.mem_cons.mp (htasks.mem_iff.mp hother) with rfl | hrest
    · exact hlater
    · exact hothers other hrest

theorem Sound.send {query : Query α} (hsound : fetch.Sound job) (hready : fetch.ready = task :: ready)
    (hquery : job.queries[task.index]? = some query) (hreply : task.reply = none) :
    (send job { fetch with ready } task query).Sound job := by
  obtain ⟨htasks, -, -, hnew, -⟩ := hsound.served hready
  have hremains := hsound.remains
  rw [htasks] at hremains
  obtain ⟨k, hturn⟩ := hsound.inTurn
  obtain ⟨k', hlt, hsent⟩ := hturn.sent hready query.request (timesSent fetch.log query.request)
  refine hsound.of_perm hready ?_ perm_tasks_later state_later ?_ (fun i => ?_) ?_
    (fun other hother => ?_) ⟨k', hsent.later _ (by exact hlt) _⟩
  · rfl
  · rw [Fetch.send, log_later, outputs_concat_sent]
  · rw [Fetch.send, log_later, answered_concat_sent]
  · rw [Fetch.send, log_later]
    exact (hremains task List.mem_cons_self).send hreply hquery _
  · rw [Fetch.send, log_later]
    refine (hremains other (List.mem_cons_of_mem task hother)).concat_sent ?_
    intro heq
    apply hnew
    rw [← heq]
    exact List.mem_map_of_mem hother

theorem Sound.retry {reply : Reply} {policy : Policy} {delay : Duration} (hsound : fetch.Sound job)
    (hready : fetch.ready = task :: ready) (hreply : task.reply = some reply)
    (hafter : task.policy.after? (attempt reply) = some (policy, delay)) :
    (later { fetch with ready } delay { index := task.index, policy }).Sound job := by
  obtain ⟨htasks, -, -, -, -⟩ := hsound.served hready
  have hremains := hsound.remains
  rw [htasks] at hremains
  obtain ⟨k, hturn⟩ := hsound.inTurn
  have hlt := hturn.replied_lt task (by rw [hready]; exact List.mem_cons_self) (by rw [hreply]; rfl)
  refine hsound.of_perm hready ?_ perm_tasks_later state_later ?_ (fun i => ?_) ?_
    (fun other hother => ?_) ⟨k, (hturn.tail hready hlt).later _ (by exact hlt) delay⟩
  · rfl
  · rw [log_later]
  · rw [log_later]
  · rw [log_later]
    exact (hremains task List.mem_cons_self).retry hreply hafter
  · rw [log_later]
    exact hremains other (List.mem_cons_of_mem task hother)

theorem perm_tasks_finish {query : Query α} {reply : Reply} :
    (finish job fetch task query reply).tasks.Perm (fetch.tasks ++
      newTasks job.policy (collector.started fetch.state)
        (collector.started (collector.answer fetch.state task.index (query.read reply)))) := by
  unfold finish tasks
  rw [List.append_assoc, List.append_assoc]
  exact List.perm_append_comm.append_left fetch.ready

theorem not_mem_outputs {i : Nat} (h : ¬ Answered fetch.log i) (output : Except ClientError α) :
    (i, output) ∉ outputs job fetch.log := by
  intro hmem
  obtain ⟨reply, -, hanswered, -⟩ := mem_outputs_iff.mp hmem
  exact h ⟨reply, hanswered⟩

theorem Sound.grows (hsound : fetch.Sound job) (hlawful : collector.Lawful)
    (hopen : ¬ collector.isDone fetch.state) (hready : fetch.ready = task :: ready)
    (output : Except ClientError α) :
    collector.started fetch.state ≤ collector.started (collector.answer fetch.state task.index output) := by
  obtain ⟨-, hstarted, hnew, -⟩ := hsound.served hready
  exact hlawful.grows (by decide) hsound.reaches hopen hstarted (not_mem_outputs hnew) output

/-- When the first task is finished, the others are left and those that are started now. -/
theorem Sound.left_iff (hsound : fetch.Sound job) (hready : fetch.ready = task :: ready) {last : Nat}
    (hle : collector.started fetch.state ≤ last) (i : Nat) :
    (i ∈ (tasks { fetch with ready }).map Task.index ∨ collector.started fetch.state ≤ i ∧ i < last) ↔
      i < last ∧ ¬ (Answered fetch.log i ∨ i = task.index) := by
  obtain ⟨htasks, hstarted, -, hnotMem, -⟩ := hsound.served hready
  have hbefore := hsound.mem_iff i
  have hbound := hsound.answered_lt i
  rw [htasks, List.map_cons, List.mem_cons] at hbefore
  by_cases hhere : i = task.index
  · rw [hhere]
    refine iff_of_false ?_ fun hlate => hlate.2 (.inr rfl)
    rintro (hrest | hlate)
    · exact hnotMem hrest
    · exact absurd hlate.1 hstarted.not_ge
  · rw [or_iff_right hhere] at hbefore
    rw [hbefore, or_iff_left hhere]
    by_cases hanswered : Answered fetch.log i
    · have hlt := hbound hanswered
      refine iff_of_false ?_ fun hlate => hlate.2 hanswered
      rintro (hrest | hlate)
      · exact hrest.2 hanswered
      · omega
    · rw [and_iff_left hanswered, and_iff_left hanswered]
      omega

/-- What is started now is not sent yet. -/
theorem Sound.remains_of_mem_newTasks (hsound : fetch.Sound job) {last : Nat}
    (h : task ∈ newTasks job.policy (collector.started fetch.state) last) :
    Remains job fetch.log task := by
  obtain ⟨k, hturn⟩ := hsound.inTurn
  have hindex := List.mem_map_of_mem (f := Task.index) h
  rw [index_newTasks, List.mem_range'_1] at hindex
  rw [eq_of_mem_newTasks h]
  apply remains_of_not_sent
  rw [hturn.sent_iff]
  exact (hturn.le_started.trans hindex.1).not_gt

theorem Sound.finish {query : Query α} {reply : Reply} (hsound : fetch.Sound job) (hlawful : collector.Lawful)
    (hopen : ¬ collector.isDone fetch.state) (hready : fetch.ready = task :: ready)
    (hquery : job.queries[task.index]? = some query) (hreply : task.reply = some reply) :
    (finish job { fetch with ready } task query reply).Sound job := by
  obtain ⟨htasks, hstarted, hnew, -, hnodup⟩ := hsound.served hready
  have hgrows := hsound.grows hlawful hopen hready (query.read reply)
  have hperm := @perm_tasks_finish _ _ job { fetch with ready } task query reply
  have hindex := hperm.map Task.index
  rw [List.map_append, index_newTasks] at hindex
  have hlength := hsound.length_add
  have hremains := hsound.remains
  rw [htasks] at hlength hremains
  obtain ⟨k, hturn⟩ := hsound.inTurn
  have hlt := hturn.replied_lt task (by rw [hready]; exact List.mem_cons_self) (by rw [hreply]; rfl)
  have hanswered := @answered_concat_answered fetch.log task.index
  refine ⟨?_, fun i => ?_, fun i hi => ?_, ?_, ?_, fun other hother => ?_, k,
    hturn.finish hready hlt hgrows⟩
  · rw [Fetch.finish, outputs_concat_answered hquery]
    exact hsound.reaches.answer hopen hstarted (not_mem_outputs hnew) _
  · rw [hindex.mem_iff, List.mem_append, List.mem_range'_1, Fetch.finish, hanswered,
      Nat.add_sub_cancel' hgrows]
    exact hsound.left_iff hready hgrows i
  · rcases hanswered.mp hi with hbefore | rfl
    · exact (hsound.answered_lt i hbefore).trans_le hgrows
    · exact hstarted.trans_le hgrows
  · refine hindex.nodup_iff.mpr (hnodup.append List.nodup_range' fun i hi hrange => ?_)
    have hthere := (hsound.mem_iff i).mp (by rw [htasks]; exact List.mem_cons_of_mem _ hi)
    exact absurd (List.mem_range'_1.mp hrange).1 hthere.1.not_ge
  · rw [hperm.length_eq, List.length_append, length_newTasks, Fetch.finish,
      outputs_concat_answered hquery, List.length_append, List.length_singleton]
    rw [List.length_cons] at hlength
    dsimp only
    omega
  · apply Remains.concat_answered
    rcases List.mem_append.mp (hperm.mem_iff.mp hother) with hbefore | hadded
    · exact hremains other (List.mem_cons_of_mem task hbefore)
    · exact hsound.remains_of_mem_newTasks hadded

theorem Sound.moves (hsound : fetch.Sound job) (hlawful : collector.Lawful)
    (hopen : ¬ collector.isDone fetch.state) (h : Moves job fetch next) : next.Sound job := by
  cases h with
  | wake hready hmem => exact hsound.wakeAt hready _
  | send hready hquery hreply => exact hsound.send hready hquery hreply
  | retry hready hreply hafter => exact hsound.retry hready hreply hafter
  | finish hready hquery hreply hafter => exact hsound.finish hlawful hopen hready hquery hreply

/-- The requests under way are among the tasks that are left, and those are few. -/
theorem Sound.encard_le (hsound : fetch.Sound job) (hlawful : collector.Lawful) :
    (underWay fetch.log).encard ≤ maxUnderWay := by
  have hsubset : underWay fetch.log ⊆ ↑(fetch.tasks.map Task.index).toFinset := by
    rintro i ⟨hsent, hnew⟩
    obtain ⟨k, hturn⟩ := hsound.inTurn
    have hlt := (hturn.sent_iff i).mp hsent
    rw [Finset.mem_coe, List.mem_toFinset, hsound.mem_iff]
    exact ⟨hlt.trans_le hturn.le_started, hnew⟩
  have hcard : (fetch.tasks.map Task.index).toFinset.card ≤ maxUnderWay := by
    have hlimited := (hlawful.keeps (by decide) hsound.reaches).limited
    have hlength := hsound.length_add
    have hle := (fetch.tasks.map Task.index).toFinset_card_le
    rw [List.length_map] at hle
    omega
  calc (underWay fetch.log).encard
      ≤ ((fetch.tasks.map Task.index).toFinset : Set Nat).encard := Set.encard_le_encard hsubset
    _ = (fetch.tasks.map Task.index).toFinset.card := Set.encard_coe_eq_coe_finsetCard _
    _ ≤ maxUnderWay := Nat.cast_le.mpr hcard

/-- An event that a step adds to the log follows those before it. -/
theorem Sound.recorded (hsound : fetch.Sound job) (hlawful : collector.Lawful) (hnext : next.Sound job)
    (h : Moves job fetch next) (hrecorded : Recorded job fetch.log) : Recorded job next.log := by
  have hnarrow := hnext.encard_le hlawful
  cases h with
  | wake hready hmem => exact hrecorded
  | retry hready hreply hafter =>
    rw [log_later]
    exact hrecorded
  | @send task ready query hready hquery hreply =>
    obtain ⟨-, -, hnew, -⟩ := hsound.served hready
    obtain ⟨k, hturn⟩ := hsound.inTurn
    rw [Fetch.send, log_later] at hnarrow ⊢
    refine hrecorded.concat ⟨⟨query, hquery, rfl⟩, rfl, fun j hj => ?_, hnew⟩ hnarrow
    exact (hturn.sent_iff j).mpr (hj.trans_le (hturn.index_le hready))
  | @finish task ready query reply hready hquery hreply hafter =>
    obtain ⟨-, -, hnew, -⟩ := hsound.served hready
    have hremains := hsound.remains task (by rw [(hsound.served hready).1]; exact List.mem_cons_self)
    exact hrecorded.concat ⟨hnew, query, hquery, hremains.run_eq hquery hreply hafter⟩ hnarrow

end Sound

/-- How many steps a task may take, besides waking. -/
def effort (task : Task) : Nat :=
  4 * (task.policy.maxRetries - task.policy.retries) + if task.reply.isSome then 1 else 3

/-- How many steps may be left. A task that waits takes one more, and further requests may start. -/
def stepsLeft (job : Job α) (fetch : Fetch collector) : Nat :=
  (fetch.tasks.map effort).sum + fetch.asleep.length +
    (job.queries.length - collector.started fetch.state) * effort { index := 0, policy := job.policy }

section Steps

variable {job : Job α} {fetch next : Fetch collector}

theorem effort_newTasks (policy : Policy) (first last : Nat) :
    ((newTasks policy first last).map effort).sum = (last - first) * effort { index := 0, policy } := by
  rw [List.sum_eq_card_nsmul _ (effort { index := 0, policy }), List.length_map, length_newTasks,
    smul_eq_mul]
  intro count hcount
  obtain ⟨task, htask, rfl⟩ := List.mem_map.mp hcount
  rw [eq_of_mem_newTasks htask]
  rfl

/-- A retry saves more than the waiting for it costs. -/
theorem effort_lt_of_after? {task : Task} {reply : Reply} {policy : Policy} {delay : Duration}
    (hreply : task.reply = some reply)
    (h : task.policy.after? (attempt reply) = some (policy, delay)) :
    effort { index := task.index, policy } + 1 < effort task := by
  unfold Policy.after? Policy.next? at h
  unfold effort
  rw [hreply]
  split at h
  · cases h
  · split at h
    · cases h
      dsimp only [Option.isSome_none, Option.isSome_some]
      rw [if_neg Bool.false_ne_true, if_pos rfl]
      omega
    · cases h

/-- A task that waits takes what it may take, and one step more at most. -/
theorem stepsLeft_later (fetch : Fetch collector) (delay : Duration) (task : Task) :
    (fetch.later delay task).stepsLeft job ≤ effort task + 1 + fetch.stepsLeft job := by
  have hasleep := @length_asleep_later _ _ fetch delay task
  unfold stepsLeft
  rw [(perm_tasks_later.map effort).sum_nat, state_later, List.map_cons, List.sum_cons]
  omega

theorem Sound.stepsLeft_eq {task : Task} {ready : List Task} (hsound : fetch.Sound job)
    (hready : fetch.ready = task :: ready) :
    fetch.stepsLeft job = effort task + stepsLeft job { fetch with ready } := by
  unfold stepsLeft
  rw [(hsound.served hready).1, List.map_cons, List.sum_cons]
  dsimp only
  omega

/-- Every step is one of those that may be left. -/
theorem Sound.stepsLeft_lt (hsound : fetch.Sound job) (hlawful : collector.Lawful)
    (hopen : ¬ collector.isDone fetch.state) (h : Moves job fetch next) :
    next.stepsLeft job < fetch.stepsLeft job := by
  cases h with
  | wake hready hmem =>
    have hasleep := length_asleep_wakeAt hmem
    unfold stepsLeft
    rw [((perm_tasks_wakeAt hready _).map effort).sum_nat]
    dsimp only [Fetch.wakeAt] at hasleep ⊢
    omega
  | @send task ready query hready hquery hreply =>
    have hreplied : ∀ reply, effort { task with reply := some reply } + 2 = effort task := by
      intro reply
      unfold effort
      rw [hreply]
      rfl
    rw [hsound.stepsLeft_eq hready]
    refine Nat.lt_of_le_of_lt (stepsLeft_later _ _ _) ?_
    rw [← hreplied]
    exact Nat.add_lt_add_right (Nat.lt_succ_self _) _
  | @retry task ready reply policy delay hready hreply hafter =>
    rw [hsound.stepsLeft_eq hready]
    refine Nat.lt_of_le_of_lt (stepsLeft_later _ _ _) ?_
    exact Nat.add_lt_add_right (effort_lt_of_after? hreply hafter) _
  | @finish task ready query reply hready hquery hreply hafter =>
    -- What a request that starts now may cost was set aside for it before.
    have hgrows := hsound.grows hlawful hopen hready (query.read reply)
    have hnext := hsound.finish hlawful hopen hready hquery hreply
    have htotal := (hlawful.keeps (by decide) hnext.reaches).started_le
    have hperm := @perm_tasks_finish _ _ job { fetch with ready } task query reply
    have hpos : 0 < effort task := by
      unfold effort
      split <;> omega
    rw [hsound.stepsLeft_eq hready]
    unfold stepsLeft
    rw [(hperm.map effort).sum_nat, List.map_append, List.sum_append, effort_newTasks]
    dsimp only [Fetch.finish] at htotal ⊢
    have hsplit : job.queries.length - collector.started fetch.state =
        (collector.started (collector.answer fetch.state task.index (query.read reply)) -
          collector.started fetch.state) + (job.queries.length -
          collector.started (collector.answer fetch.state task.index (query.read reply))) := by
      omega
    rw [hsplit, Nat.add_mul]
    omega

/-- As long as the collection has not ended, a task is left that can be served or woken. -/
theorem Sound.exists_step (hsound : fetch.Sound job) (hlawful : collector.Lawful)
    (hopen : ¬ collector.isDone fetch.state) : ∃ next, fetch.step job = some next := by
  have hkeeps := hlawful.keeps (by decide) hsound.reaches
  rw [step, if_neg hopen]
  cases hready : fetch.ready with
  | cons task ready =>
    have hlt := (hsound.served hready).2.1.trans_le hkeeps.started_le
    dsimp only
    rw [List.getElem?_eq_getElem hlt]
    exact ⟨_, rfl⟩
  | nil =>
    obtain ⟨i, hstarted, hnew⟩ := hkeeps.waits hopen
    have hlt := hstarted.trans_le hkeeps.started_le
    have hopen : ¬ Answered fetch.log i := by
      rintro ⟨reply, hanswered⟩
      exact hnew _ (mem_outputs_iff.mpr ⟨reply, _, hanswered, List.getElem?_eq_getElem hlt, rfl⟩)
    have hthere := (hsound.mem_iff i).mpr ⟨hstarted, hopen⟩
    rw [tasks, hready, List.nil_append, List.map_map] at hthere
    dsimp only
    unfold wake
    cases hmin : (fetch.asleep.map Prod.fst).min? with
    | some time => exact ⟨_, rfl⟩
    | none =>
      rw [List.map_eq_nil_iff.mp (List.min?_eq_none_iff.mp hmin)] at hthere
      cases hthere

/-- Enough steps take every state to one where the collection has ended. -/
theorem Sound.iterate {n : Nat} (hsound : fetch.Sound job) (hlawful : collector.Lawful)
    (hrecorded : Recorded job fetch.log) (hn : fetch.stepsLeft job ≤ n) :
    (iterate job n fetch).Sound job ∧ Recorded job (iterate job n fetch).log ∧
      collector.isDone (iterate job n fetch).state := by
  induction n generalizing fetch with
  | zero =>
    refine ⟨hsound, hrecorded, ?_⟩
    by_contra hopen
    obtain ⟨next, hstep⟩ := hsound.exists_step hlawful hopen
    exact absurd (hsound.stepsLeft_lt hlawful hopen (moves_of_step hstep)) (by omega)
  | succ n ih =>
    unfold Fetch.iterate
    by_cases hdone : collector.isDone fetch.state
    · have hstop : fetch.step job = none := if_pos hdone
      rw [hstop]
      exact ⟨hsound, hrecorded, hdone⟩
    · obtain ⟨next, hstep⟩ := hsound.exists_step hlawful hdone
      have hmoves := moves_of_step hstep
      have hnext := hsound.moves hlawful hdone hmoves
      have hless := hsound.stepsLeft_lt hlawful hdone hmoves
      rw [hstep]
      exact ih hnext (hsound.recorded hlawful hnext hmoves hrecorded) (by omega)

/-- Serving a job ends with the collection. -/
theorem sound_run (hlawful : collector.Lawful) (job : Job α) :
    (run collector job).Sound job ∧ Recorded job (run collector job).log ∧
      collector.isDone (run collector job).state := by
  refine (sound_start job).iterate hlawful .nil ?_
  have hstarted := (hlawful.keeps (by decide) (@sound_start _ collector job).reaches).started_le
  have heffort : effort { index := 0, policy := job.policy } ≤ 4 * (job.policy.maxRetries + 1) := by
    unfold effort
    dsimp only [Option.isSome_none]
    rw [if_neg Bool.false_ne_true]
    omega
  have hasleep : (start collector job).asleep.length = 0 := rfl
  calc stepsLeft job (start collector job)
      = collector.started (start collector job).state * effort { index := 0, policy := job.policy } +
          (job.queries.length - collector.started (start collector job).state) *
            effort { index := 0, policy := job.policy } := by
        rw [stepsLeft, tasks_start, effort_newTasks, hasleep, Nat.sub_zero, Nat.add_zero]
    _ = job.queries.length * effort { index := 0, policy := job.policy } := by
        rw [← Nat.add_mul, Nat.add_sub_cancel' hstarted]
    _ ≤ job.queries.length * (4 * (job.policy.maxRetries + 1)) := Nat.mul_le_mul_left _ heffort
    _ = 4 * job.queries.length * (job.policy.maxRetries + 1) := by
        rw [Nat.mul_comm 4 job.queries.length, Nat.mul_assoc]

/-- The outcome counts the sendings of every request. -/
theorem mem_sent_outcome_iff (hlawful : collector.Lawful) (job : Job α) (request : Request) (n : Nat) :
    (request.text, n) ∈ (run collector job).outcome.sent ↔
      n ≠ 0 ∧ n = timesSent (run collector job).log request :=
  (sound_run hlawful job).2.1.mem_counts_iff request n

end Steps

end BlockAudit.Client.Fetch

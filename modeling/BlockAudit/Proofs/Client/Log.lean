import BlockAudit.Client.Fetch
import BlockAudit.Proofs.Retry
import Mathlib.Data.Set.Card

/-!
What the log of a fetch tells. Requests are sent for the first time in list order, each as often as a call of
its own sends it, and only a limited number of them is under way at a time.
-/
namespace BlockAudit.Client

open Retry (Policy)

variable {α : Type}

def Sent (log : List Event) (i : Nat) : Prop :=
  ∃ request earlier, .sent i request earlier ∈ log

def Answered (log : List Event) (i : Nat) : Prop :=
  ∃ reply, .answered i reply ∈ log

/-- The requests that are sent and not answered. -/
def underWay (log : List Event) : Set Nat :=
  {i | Sent log i ∧ ¬ Answered log i}

/-- The sendings for a place of the list, numbered among all sendings of the same request. -/
def sendings (log : List Event) (i : Nat) : List Nat :=
  log.filterMap fun
    | .sent j _ earlier => if j = i then some earlier else none
    | .answered _ _ => none

/-- The outputs of the queries that are answered, in the order of the answers. -/
def outputs (job : Job α) (log : List Event) : List (Nat × Except ClientError α) :=
  log.filterMap fun
    | .sent _ _ _ => none
    | .answered i reply => job.queries[i]?.map fun query => (i, query.read reply)

section Concat

variable {log : List Event} {i j n : Nat} {request : Request} {reply : Reply}

theorem sent_concat_sent : Sent (log ++ [.sent i request n]) j ↔ Sent log j ∨ j = i := by
  simp only [Sent, List.mem_append, List.mem_singleton, Event.sent.injEq]
  constructor
  · rintro ⟨other, m, hlog | ⟨rfl, -, -⟩⟩
    · exact .inl ⟨other, m, hlog⟩
    · exact .inr rfl
  · rintro (⟨other, m, hlog⟩ | rfl)
    · exact ⟨other, m, .inl hlog⟩
    · exact ⟨request, n, .inr ⟨rfl, rfl, rfl⟩⟩

theorem sent_concat_answered : Sent (log ++ [.answered i reply]) j ↔ Sent log j := by
  simp [Sent]

theorem answered_concat_sent : Answered (log ++ [.sent i request n]) j ↔ Answered log j := by
  simp [Answered]

theorem answered_concat_answered :
    Answered (log ++ [.answered i reply]) j ↔ Answered log j ∨ j = i := by
  simp [Answered, exists_or]

theorem sendings_concat_sent :
    sendings (log ++ [.sent i request n]) j = sendings log j ++ if i = j then [n] else [] := by
  unfold sendings
  rw [List.filterMap_append]
  split <;> simp [*]

theorem sendings_concat_answered : sendings (log ++ [.answered i reply]) j = sendings log j := by
  simp [sendings]

theorem sendings_eq_nil (h : ¬ Sent log i) : sendings log i = [] := by
  apply List.filterMap_eq_nil_iff.mpr
  intro event hevent
  cases event with
  | sent j request n =>
    have hne : j ≠ i := by
      rintro rfl
      exact h ⟨request, n, hevent⟩
    exact if_neg hne
  | answered j reply => rfl

variable {job : Job α} {query : Query α} {output : Except ClientError α}

theorem outputs_concat_sent : outputs job (log ++ [.sent i request n]) = outputs job log := by
  simp [outputs]

theorem outputs_concat_answered (hquery : job.queries[i]? = some query) :
    outputs job (log ++ [.answered i reply]) = outputs job log ++ [(i, query.read reply)] := by
  simp [outputs, hquery]

theorem mem_outputs_iff : (i, output) ∈ outputs job log ↔
    ∃ reply query, .answered i reply ∈ log ∧ job.queries[i]? = some query ∧
      query.read reply = output := by
  unfold outputs
  rw [List.mem_filterMap]
  constructor
  · rintro ⟨event, hevent, houtput⟩
    cases event with
    | sent j request n => cases houtput
    | answered j reply =>
      obtain ⟨query, hquery, heq⟩ := Option.map_eq_some_iff.mp houtput
      obtain ⟨rfl, rfl⟩ := Prod.mk.inj heq
      exact ⟨reply, query, hevent, hquery, rfl⟩
  · rintro ⟨reply, query, hevent, hquery, rfl⟩
    refine ⟨_, hevent, ?_⟩
    dsimp only
    rw [hquery]
    rfl

end Concat

section Tried

variable {policy now next : Policy} {failed : List Reply} {reply : Reply} {delay : Duration}

/-- What is left of a policy after replies that all call for a retry. -/
structure Tried (policy : Policy) (failed : List Reply) (now : Policy) : Prop where
  not_isOk : ∀ reply ∈ failed, ¬ (attempt reply).isOk
  length_le : failed.length ≤ policy.maxRetries - policy.retries
  eq_later : now = policy.later failed.length

theorem tried_nil (policy : Policy) : Tried policy [] policy :=
  ⟨nofun, Nat.zero_le _, rfl⟩

theorem Tried.concat (h : Tried policy failed now)
    (hafter : now.after? (attempt reply) = some (next, delay)) : Tried policy (failed ++ [reply]) next := by
  obtain ⟨hfailed, hle, rfl⟩ := h
  unfold Policy.after? at hafter
  cases hattempt : attempt reply with
  | ok answer =>
    rw [hattempt] at hafter
    cases hafter
  | error last =>
    rw [hattempt] at hafter
    dsimp only [Policy.next?] at hafter
    split at hafter
    · rename_i hlt
      obtain ⟨rfl, -⟩ := Prod.mk.inj (Option.some.inj hafter)
      unfold Policy.later at hlt
      refine ⟨fun other hother => ?_, ?_, ?_⟩
      · rcases List.mem_append.mp hother with hbefore | hlast
        · exact hfailed other hbefore
        · rw [List.mem_singleton.mp hlast, hattempt]
          exact Bool.false_ne_true
      · rw [List.length_append, List.length_singleton]
        dsimp only at hlt
        omega
      · rw [List.length_append, List.length_singleton, ← Policy.later_later]
        rfl
    · cases hafter

/-- A call with these replies, of which only the last does not call for a retry, ends with the last. -/
theorem Tried.run_eq (h : Tried policy failed now) (hafter : now.after? (attempt reply) = none)
    (request : Request) {script : Nat → Except Reply Reply}
    (hscript : ∀ k other, (failed ++ [reply])[k]? = some other → script k = attempt other) :
    let run := Retry.Call.run ⟨request, policy⟩ script
    run.result = attempt reply ∧ run.sent.length = failed.length + 1 := by
  have hlast : script failed.length = attempt reply := hscript _ _ (by simp)
  obtain ⟨hfailed, hle, rfl⟩ := h
  have hrun := @Retry.Call.run_eq _ _ _ request policy script failed.length (fun i hi => ?_) hle ?_
  · dsimp only
    rw [hrun]
    exact ⟨hlast, List.length_replicate⟩
  · have hplace := hscript i failed[i] (by rw [List.getElem?_append_left hi, List.getElem?_eq_getElem hi])
    rw [hplace]
    exact hfailed _ (List.getElem_mem hi)
  · rw [hlast]
    cases hattempt : attempt reply with
    | ok answer => exact .inl rfl
    | error last =>
      rw [hattempt] at hafter
      have hnone := Policy.next?_eq_none_iff.mp hafter
      unfold Policy.later at hnone
      dsimp only at hnone
      exact .inr (by omega)

end Tried

/-- What holds of an event that follows a log: a request is sent for the first time only after those before
it in the list, and answered once, with what a call of its own leads to. -/
def Follows (job : Job α) (log : List Event) : Event → Prop
  | .sent i request earlier =>
    (∃ query, job.queries[i]? = some query ∧ request = query.request) ∧
      earlier = timesSent log request ∧ (∀ j < i, Sent log j) ∧ ¬ Answered log i
  | .answered i reply =>
    ¬ Answered log i ∧ ∃ query, job.queries[i]? = some query ∧
      let run := Retry.Call.run ⟨query.request, job.policy⟩ fun k =>
        attempt (job.transport query.request ((sendings log i).getD k 0))
      run.result = attempt reply ∧ run.sent.length = (sendings log i).length

/-- A log in which every event follows those before it, with at most so many requests under way. -/
inductive Recorded (job : Job α) : List Event → Prop where
  | nil : Recorded job []
  | concat {log : List Event} {event : Event} (hrecorded : Recorded job log)
      (hfollows : Follows job log event) (hnarrow : (underWay (log ++ [event])).encard ≤ maxUnderWay) :
      Recorded job (log ++ [event])

section Recorded

variable {job : Job α} {log front rest : List Event} {event : Event}

theorem Recorded.follows (hrecorded : Recorded job log) (h : log = front ++ event :: rest) :
    Follows job front event := by
  induction hrecorded generalizing rest with
  | nil => exact absurd h (by simp)
  | concat hrecorded hfollows hnarrow ih =>
    rcases List.eq_nil_or_concat rest with rfl | ⟨between, last, rfl⟩
    · obtain ⟨rfl, hlast⟩ := List.append_inj' h rfl
      obtain rfl := List.singleton_inj.mp hlast
      exact hfollows
    · rw [List.concat_eq_append, ← List.cons_append, ← List.append_assoc] at h
      exact ih (List.append_inj' h rfl).1

theorem Recorded.encard_le (hrecorded : Recorded job log) (h : front <+: log) :
    (underWay front).encard ≤ maxUnderWay := by
  induction hrecorded with
  | nil =>
    have hempty : underWay [] = ∅ := by simp [underWay, Sent]
    rw [List.prefix_nil.mp h, hempty, Set.encard_empty]
    exact zero_le
  | concat hrecorded hfollows hnarrow ih =>
    rcases List.prefix_concat_iff.mp h with rfl | hbefore
    · exact hnarrow
    · exact ih hbefore

theorem timesSent_concat_sent (log : List Event) (i n : Nat) (request other : Request) :
    timesSent (log ++ [.sent i other n]) request =
      timesSent log request + if request.text = other.text then 1 else 0 := by
  unfold timesSent
  rw [List.countP_append, List.countP_singleton]
  exact congrArg _ (if_congr (beq_iff_eq.trans eq_comm) rfl rfl)

theorem timesSent_concat_answered (log : List Event) (i : Nat) (reply : Reply) (request : Request) :
    timesSent (log ++ [.answered i reply]) request = timesSent log request := by
  unfold timesSent
  rw [List.countP_append, List.countP_singleton, Event.sends, if_neg Bool.false_ne_true]
  rfl

/-- Every request that was sent is counted once, with the number of its sendings. -/
theorem Recorded.mem_counts_iff (hrecorded : Recorded job log) (request : Request) (n : Nat) :
    (request.text, n) ∈ log.foldl countSending [] ↔ n ≠ 0 ∧ n = timesSent log request := by
  induction hrecorded with
  | nil =>
    refine iff_of_false List.not_mem_nil ?_
    rintro ⟨hne, hzero⟩
    exact hne hzero
  | @concat log event hrecorded hfollows hnarrow ih =>
    rw [List.foldl_append, List.foldl_cons, List.foldl_nil]
    cases event with
    | answered i reply =>
      rw [timesSent_concat_answered]
      exact ih
    | sent i other earlier =>
      obtain ⟨-, rfl, -⟩ := hfollows
      rw [timesSent_concat_sent, countSending, List.mem_append, List.mem_filter, List.mem_singleton, ih,
        Prod.mk.injEq, bne_iff_ne]
      by_cases hsame : request.text = other.text
      · have hcount : timesSent log other = timesSent log request := by
          unfold timesSent Event.sends
          rw [hsame]
        rw [if_pos hsame, hcount]
        simp only [hsame, ne_eq, not_true_eq_false, and_false, true_and, false_or]
        omega
      · rw [if_neg hsame, or_iff_left fun h => hsame h.1, and_iff_left hsame]
        rfl

end Recorded

end BlockAudit.Client

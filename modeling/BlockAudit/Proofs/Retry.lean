import BlockAudit.Client.Request
import BlockAudit.Retry
import Mathlib.Data.ENat.Lattice

/-!
How often a request is sent, and after which delays. A call tells nothing to the calls after it: every one has
all retries of the policy and starts with its first delay.
-/
namespace BlockAudit

namespace Duration

variable {a b : Duration} {factor : Nat}

theorem le_iff : a ≤ b ↔ a.nanos ≤ b.nanos := Iff.rfl

theorem nanos_min (a b : Duration) : (min a b).nanos = min a.nanos b.nanos := by
  change (if a ≤ b then a else b).nanos = _
  rw [apply_ite nanos, Nat.min_def]
  rfl

/-- As many milliseconds as 64 bits can count are no more than the longest duration. -/
theorem nanos_ofMillis (millis : UInt64) : (ofMillis millis.toNat).nanos = millis.toNat * 10 ^ 6 := by
  have hlt : millis.toNat < UInt64.size := millis.toNat_lt
  unfold ofMillis limit
  dsimp only [UInt64.size] at hlt ⊢
  omega

/-- A multiple that is too long is above every duration. -/
theorem nanos_lt_of_times?_eq_none (h : a.times? factor = none) (b : Duration) :
    b.nanos < a.nanos * factor := by
  unfold times? at h
  split at h
  · cases h
  · exact Nat.lt_of_lt_of_le b.lt_limit (Nat.le_of_not_lt ‹_›)

theorem nanos_of_times?_eq_some (h : a.times? factor = some b) : b.nanos = a.nanos * factor := by
  unfold times? at h
  split at h
  · cases h
    rfl
  · cases h

end Duration

namespace Retry

theorem nanos_maxDelay : maxDelay.nanos = 30 * 10 ^ 9 := by decide

namespace Policy

variable {policy : Policy}

/-- Refusing a product that is too long does no harm: it is longer than the longest delay. -/
theorem nanos_delay (policy : Policy) :
    policy.delay.nanos = min (policy.backoff.nanos * 2 ^ min policy.retries 16) (30 * 10 ^ 9) := by
  rw [← nanos_maxDelay]
  unfold delay
  cases hproduct : policy.backoff.times? (Nat.pow 2 (min policy.retries 16)) with
  | none =>
    have hlong := Duration.nanos_lt_of_times?_eq_none hproduct maxDelay
    exact (Nat.min_eq_right hlong.le).symm
  | some product =>
    have hexact := Duration.nanos_of_times?_eq_some hproduct
    rw [← Nat.pow_eq, ← hexact]
    exact Duration.nanos_min product maxDelay

/-- A delay of a millisecond that has doubled 16 times is over the longest delay, so that it does not matter
that doubling ends there. -/
theorem min_mul_two_pow_min (millis retries : Nat) :
    min (millis * 10 ^ 6 * 2 ^ min retries 16) (30 * 10 ^ 9) =
      min (millis * 10 ^ 6 * 2 ^ retries) (30 * 10 ^ 9) := by
  rcases Nat.le_total retries 16 with hfew | hmany
  · rw [Nat.min_eq_left hfew]
  · rw [Nat.min_eq_right hmany]
    rcases Nat.eq_zero_or_pos millis with rfl | hpos
    · simp only [Nat.zero_mul]
    · have hpow : 2 ^ 16 ≤ 2 ^ retries := Nat.pow_le_pow_right (by decide) hmany
      have hlong : 30 * 10 ^ 9 ≤ millis * 10 ^ 6 * 2 ^ 16 := by omega
      have hlonger : millis * 10 ^ 6 * 2 ^ 16 ≤ millis * 10 ^ 6 * 2 ^ retries :=
        Nat.mul_le_mul_left _ hpow
      rw [Nat.min_eq_right hlong, Nat.min_eq_right (hlong.trans hlonger)]

/-- With a backoff of whole milliseconds, doubling need not end. -/
theorem nanos_delay_of_millis {millis : Nat} (h : policy.backoff.nanos = millis * 10 ^ 6) :
    policy.delay.nanos = min (millis * 10 ^ 6 * 2 ^ policy.retries) (30 * 10 ^ 9) := by
  rw [nanos_delay, h, min_mul_two_pow_min]

/-- The policy after some more retries. -/
def later (policy : Policy) (count : Nat) : Policy :=
  { policy with retries := policy.retries + count }

theorem later_zero (policy : Policy) : policy.later 0 = policy := rfl

theorem later_later (policy : Policy) (m n : Nat) : (policy.later m).later n = policy.later (m + n) := by
  unfold later
  rw [Nat.add_assoc]

theorem delay_le_delay_later (policy : Policy) (count : Nat) : policy.delay ≤ (policy.later count).delay := by
  rw [Duration.le_iff, nanos_delay, nanos_delay]
  apply min_le_min_right
  apply Nat.mul_le_mul_left
  apply Nat.pow_le_pow_right (by decide)
  exact min_le_min_right 16 (Nat.le_add_right _ _)

theorem next?_of_lt (h : policy.retries < policy.maxRetries) :
    policy.next? = some (policy.later 1, policy.delay) := if_pos h

theorem next?_eq_none_iff : policy.next? = none ↔ policy.maxRetries ≤ policy.retries := by
  unfold next?
  split
  · exact iff_of_false (by rintro ⟨⟩) (by omega)
  · exact iff_of_true rfl (by omega)

end Policy

section Run

variable {ρ ε α : Type}

theorem Call.run_of_after?_eq_none {call : Call ρ} {script : Nat → Except ε α}
    (h : call.policy.after? (script 0) = none) : call.run script = ⟨[call.request], [], script 0⟩ := by
  rw [run]
  split
  · rfl
  · rename_i hsome
    rw [h] at hsome
    cases hsome

theorem Call.run_of_after?_eq_some {call : Call ρ} {script : Nat → Except ε α} {policy : Policy}
    {delay : Duration} (h : call.policy.after? (script 0) = some (policy, delay)) :
    call.run script =
      let rest := Call.run ⟨call.request, policy⟩ fun i => script (i + 1)
      ⟨call.request :: rest.sent, delay :: rest.waits, rest.result⟩ := by
  rw [run]
  split
  · rename_i hnone
    rw [h] at hnone
    cases hnone
  · rename_i hsome
    rw [h] at hsome
    cases hsome
    rfl

/-- A call goes on through errors, one retry each, up to a success or its last retry. -/
theorem Call.run_eq (request : ρ) (policy : Policy) {script : Nat → Except ε α} {retries : Nat}
    (herrors : ∀ i < retries, ¬ (script i).isOk)
    (hleft : retries ≤ policy.maxRetries - policy.retries)
    (hend : (script retries).isOk ∨ retries = policy.maxRetries - policy.retries) :
    Call.run ⟨request, policy⟩ script =
      ⟨List.replicate (retries + 1) request,
        (List.range retries).map fun i => (policy.later i).delay, script retries⟩ := by
  induction retries generalizing policy script with
  | zero =>
    apply run_of_after?_eq_none
    dsimp only
    cases hfirst : script 0 with
    | ok a => rfl
    | error error =>
      have hlast := hend.resolve_left (by rw [hfirst]; exact Bool.false_ne_true)
      exact Policy.next?_eq_none_iff.mpr (by omega)
  | succ retries ih =>
    have hafter : policy.after? (script 0) = some (policy.later 1, policy.delay) := by
      cases hfirst : script 0 with
      | ok a => exact absurd (congrArg Except.isOk hfirst) (herrors 0 (Nat.succ_pos retries))
      | error error => exact Policy.next?_of_lt (by omega)
    have hone : (policy.later 1).maxRetries - (policy.later 1).retries =
        policy.maxRetries - policy.retries - 1 := Nat.sub_sub _ _ 1
    have hrest := @ih (policy.later 1) (fun i => script (i + 1))
      (fun i hi => herrors (i + 1) (by omega)) (by omega) (hend.imp_right fun hlast => by omega)
    rw [run_of_after?_eq_some hafter, hrest, List.range_succ_eq_map]
    simp [List.replicate_succ, Policy.later_later, Policy.later_zero, Function.comp_def, Nat.add_comm 1]

end Run

section Calls

variable {ρ ε α : Type}

/-- The position of the first success, infinite if there is none. -/
noncomputable def firstSuccess (script : Nat → Except ε α) : ℕ∞ :=
  ⨅ (i : ℕ) (_ : (script i).isOk), (i : ℕ∞)

/-- A call can end at the first success or at its last retry, whichever comes first. -/
theorem exists_end (script : Nat → Except ε α) (maxRetries : Nat) :
    ∃ retries : Nat, (retries : ℕ∞) = min (firstSuccess script) maxRetries ∧
      (∀ i < retries, ¬ (script i).isOk) ∧ retries ≤ maxRetries ∧
      ((script retries).isOk ∨ retries = maxRetries) ∧
      ((script retries).isOk ↔ firstSuccess script ≤ maxRetries) := by
  classical
  by_cases hsome : ∃ i, i ≤ maxRetries ∧ (script i).isOk
  · obtain ⟨hle, hok⟩ := Nat.find_spec hsome
    have hbefore : ∀ i, (script i).isOk → Nat.find hsome ≤ i := fun i hi =>
      (Nat.le_total i maxRetries).elim (fun him => Nat.find_min' hsome ⟨him, hi⟩) hle.trans
    have hfirst : firstSuccess script = Nat.find hsome := by
      unfold firstSuccess
      apply le_antisymm
      · exact iInf₂_le (Nat.find hsome) hok
      · exact le_iInf₂ fun i hi => Nat.cast_le.mpr (hbefore i hi)
    have hwithin : firstSuccess script ≤ maxRetries := by
      rw [hfirst]
      exact Nat.cast_le.mpr hle
    refine ⟨Nat.find hsome, ?_, fun i hi hok => ?_, hle, .inl hok, iff_of_true hok hwithin⟩
    · rw [min_eq_left hwithin, hfirst]
    · exact absurd (hbefore i hok) (Nat.not_le.mpr hi)
  · have hnone : ∀ i, (script i).isOk → maxRetries < i := fun i hi =>
      Nat.lt_of_not_le fun hle => hsome ⟨i, hle, hi⟩
    have hbeyond : (maxRetries : ℕ∞) < firstSuccess script := by
      refine lt_of_lt_of_le (Nat.cast_lt.mpr (Nat.lt_succ_self maxRetries)) ?_
      exact le_iInf₂ fun i hi => Nat.cast_le.mpr (hnone i hi)
    refine ⟨maxRetries, ?_, fun i hi hok => ?_, le_rfl, .inr rfl, iff_of_false (fun hok => ?_) hbeyond.not_ge⟩
    · rw [min_eq_right hbeyond.le]
    · exact absurd (hnone i hok) (Nat.not_lt.mpr hi.le)
    · exact lt_irrefl _ (hnone maxRetries hok)

/-- What may be done with services before a call: a call on one of them, or a copy of one. -/
inductive Use (ρ : Type) where
  | call (service : Nat) (request : ρ)
  | copy (service : Nat)

/-- The services after a use. -/
def Use.after (services : List Service) : Use ρ → List Service
  | .call i request => services.modify i fun service => (service.call request).2
  | .copy i => services ++ services[i]?.toList

theorem Use.after_call (services : List Service) (i : Nat) (request : ρ) :
    after services (.call i request) = services := by
  change services.modify i id = services
  exact List.modify_id i services

/-- Every service that comes from one by calls and copies has its policy. -/
theorem policy_of_mem_uses (uses : List (Use ρ)) {services : List Service} {policy : Policy}
    (h : ∀ service ∈ services, service.policy = policy) :
    ∀ service ∈ uses.foldl Use.after services, service.policy = policy := by
  induction uses generalizing services with
  | nil => exact h
  | cons use uses ih =>
    apply ih
    intro service hservice
    cases use with
    | call i request =>
      rw [Use.after_call] at hservice
      exact h service hservice
    | copy i =>
      rcases List.mem_append.mp hservice with hthere | hcopy
      · exact h service hthere
      · exact h service (List.mem_of_getElem? (Option.mem_toList.mp hcopy))

/-- After any calls on a service and its copies, a call on one of them is a first call: it sends its request
again up to the first success, as often as the policy allows, and waits with the delays of the policy from the
first one on. Every reply of a node is a success, refusals included. -/
theorem call_runs_afresh (backoff : Duration) (maxRetries : Nat) (uses : List (Use ρ))
    {service : Service} (h : service ∈ uses.foldl Use.after [⟨{ backoff, maxRetries }⟩])
    (request : ρ) (script : Nat → Except ε α) :
    (∃ retries : Nat, (retries : ℕ∞) = min (firstSuccess script) maxRetries ∧
      ((service.call request).1.run script).sent = List.replicate (retries + 1) request ∧
      ((service.call request).1.run script).result = script retries ∧
      ((script retries).isOk ↔ firstSuccess script ≤ maxRetries) ∧
      ((service.call request).1.run script).waits.map Duration.nanos =
        (List.range retries).map fun i => min (backoff.nanos * 2 ^ min i 16) (30 * 10 ^ 9)) ∧
      ∀ reply, (Client.attempt reply).isOk ↔ reply ≠ .failure := by
  constructor
  · obtain ⟨retries, hmin, herrors, hle, hend, hok⟩ := exists_end script maxRetries
    have hpolicy : service.policy = { backoff, maxRetries } := policy_of_mem_uses uses (by simp) service h
    have hrun := Call.run_eq request { backoff, maxRetries } herrors hle hend
    rw [Service.call, hpolicy, hrun]
    refine ⟨retries, hmin, rfl, rfl, hok, ?_⟩
    rw [List.map_map]
    refine List.map_congr_left fun i _ => ?_
    rw [Function.comp_apply, Policy.nanos_delay, Policy.later, Nat.zero_add]
  · intro reply
    cases reply <;> simp [Client.attempt, Except.isOk, Except.toBool]

/-- Two errors before a success. -/
def thirdTime (i : Nat) : Except Nat Nat :=
  if i < 2 then .error i else .ok i

theorem firstSuccess_thirdTime : firstSuccess thirdTime = 2 := by
  unfold firstSuccess
  apply le_antisymm
  · exact iInf₂_le (2 : ℕ) (show (thirdTime 2).isOk by decide)
  · refine le_iInf₂ fun i hi => ?_
    match i with
    | 0 => exact absurd hi (by decide)
    | 1 => exact absurd hi (by decide)
    | i + 2 => exact_mod_cast Nat.le_add_left 2 i

theorem call_runs_afresh_thirdTime :
    ∃ service, ([Use.call 0 8, .copy 0].foldl Use.after
        [⟨{ backoff := .ofMillis 100, maxRetries := 5 }⟩])[1]? = some service ∧
      ((service.call 9).1.run thirdTime).sent = [9, 9, 9] ∧
      ((service.call 9).1.run thirdTime).result = .ok 2 ∧
      ((service.call 9).1.run thirdTime).waits.map Duration.nanos = [100 * 10 ^ 6, 200 * 10 ^ 6] := by
  refine ⟨⟨{ backoff := .ofMillis 100, maxRetries := 5 }⟩, rfl, ?_⟩
  obtain ⟨⟨retries, hmin, hsent, hresult, -, hwaits⟩, -⟩ :=
    call_runs_afresh (.ofMillis 100) 5 [Use.call 0 8, .copy 0] (List.mem_of_getElem? (i := 1) rfl) 9 thirdTime
  have hretries : retries = 2 := by
    have hle : (2 : ℕ∞) ≤ (5 : ℕ) := by exact_mod_cast (by decide : 2 ≤ 5)
    rw [firstSuccess_thirdTime, min_eq_left hle] at hmin
    exact_mod_cast hmin
  subst hretries
  exact ⟨hsent, hresult, hwaits.trans (by decide)⟩

end Calls

section Delays

variable {ρ ε α : Type}

theorem Call.exists_run_eq (call : Call ρ) (script : Nat → Except ε α) :
    ∃ retries, call.run script =
      ⟨List.replicate (retries + 1) call.request,
        (List.range retries).map fun i => (call.policy.later i).delay, script retries⟩ := by
  obtain ⟨retries, -, herrors, hle, hend, -⟩ :=
    exists_end script (call.policy.maxRetries - call.policy.retries)
  exact ⟨retries, run_eq call.request call.policy herrors hle hend⟩

/-- No delay of a call is shorter than one before. -/
theorem Call.pairwise_waits_run (call : Call ρ) (script : Nat → Except ε α) :
    (call.run script).waits.Pairwise (· ≤ ·) := by
  obtain ⟨count, hrun⟩ := exists_run_eq call script
  rw [hrun]
  refine List.pairwise_map.mpr (List.pairwise_lt_range.imp fun {i j} hij => ?_)
  obtain ⟨step, rfl⟩ := Nat.exists_eq_add_of_lt hij
  rw [Nat.add_assoc, ← Policy.later_later]
  exact Policy.delay_le_delay_later _ _

/-- With a backoff of whole milliseconds, a delay is the backoff doubled for every retry so far or 30 seconds,
whichever is less. So no delay of a call is shorter than one before. -/
theorem delay_of_millis (millis : UInt64) (retries maxRetries : Nat) (request : ρ)
    (script : Nat → Except ε α) :
    let policy : Policy := { backoff := .ofMillis millis.toNat, retries, maxRetries }
    policy.delay.nanos = min (millis.toNat * 10 ^ 6 * 2 ^ retries) (30 * 10 ^ 9) ∧
      ((Call.mk request policy).run script).waits.Pairwise (· ≤ ·) := by
  intro policy
  exact ⟨Policy.nanos_delay_of_millis (Duration.nanos_ofMillis millis),
    Call.pairwise_waits_run ⟨request, policy⟩ script⟩

end Delays

end Retry

end BlockAudit

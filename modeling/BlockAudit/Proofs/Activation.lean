import BlockAudit.Activation
import BlockAudit.Proofs.Network
import BlockAudit.Proofs.Outcome

/-!
Schedules that are made from the builtin one by setting networks and merging other schedules. The heights of
a network are the last that were written under its name, by whatever spelling they are asked for.
-/
namespace BlockAudit

/-- The rules by name. -/
def Rules.flags : List (Rules → Bool) :=
  [rskip92, rskip126, rskipUmm, rskip144, rskip351]

theorem Heights.isActive_mono {height : Option UInt64} {earlier later : UInt64} (h : earlier ≤ later)
    (hactive : isActive height earlier) : isActive height later := by
  cases height with
  | none => exact hactive
  | some first => exact decide_eq_true (UInt64.le_trans (of_decide_eq_true hactive) h)

/-- A rule stays in force. -/
theorem Heights.rulesAt_mono (heights : Heights) {earlier later : UInt64} (h : earlier ≤ later) :
    ∀ flag ∈ Rules.flags, flag (heights.rulesAt earlier) → flag (heights.rulesAt later) := by
  simp only [Rules.flags, List.forall_mem_cons]
  exact ⟨isActive_mono h, isActive_mono h, isActive_mono h, isActive_mono h, isActive_mono h, nofun⟩

namespace Schedule

/-- One way to change a schedule. -/
inductive Change where
  | insert (name : String) (heights : Heights)
  | merge (other : Schedule)

namespace Change

def apply (schedule : Schedule) : Change → Schedule
  | .insert name heights => schedule.insert name heights
  | .merge other => schedule.merge other

/-- What is written under a name. -/
def written? (name : String) : Change → Option Heights
  | .insert other heights => if name = other then some heights else none
  | .merge other => other.get? name

/-- Whatever is written under a spelling of a network is written under its own name. -/
def IsRegular (change : Change) : Prop :=
  ∀ name, (change.written? name).isSome →
    (∃ network : Network, name = network.name) ∨ Network.ofSpelling? name = none

end Change

/-- The schedule after some changes of the builtin one. -/
def after (changes : List Change) : Schedule :=
  changes.foldl Change.apply builtin

/-- What the last change that writes under a name has written there. The builtin schedule is the first
change. -/
def lastWritten? (changes : List Change) (name : String) : Option Heights :=
  (Change.merge builtin :: changes).reverse.findSome? (·.written? name)

variable {schedule other : Schedule} {change : Change} {changes : List Change} {name s : String}

theorem lookup_cons_eq_or (name other : String) (heights : Heights) (entries : List (String × Heights)) :
    List.lookup name ((other, heights) :: entries) =
      (if name = other then some heights else none).or (entries.lookup name) := by
  rw [List.lookup_cons]
  by_cases h : name = other
  · rw [if_pos h, beq_iff_eq.mpr h, Option.some_or]
  · rw [if_neg h, beq_eq_false_iff_ne.mpr h, Option.none_or]

theorem lookup_filter_ne {other : String} (h : name ≠ other) (entries : List (String × Heights)) :
    (entries.filter fun (n, _) => n != other).lookup name = entries.lookup name := by
  induction entries with
  | nil => rfl
  | cons entry entries ih =>
    obtain ⟨n, heights⟩ := entry
    rw [List.filter_cons, lookup_cons_eq_or]
    by_cases hn : n = other
    · rw [if_neg (by simpa using hn), if_neg (hn ▸ h), Option.none_or, ih]
    · rw [if_pos (by simpa using hn), lookup_cons_eq_or, ih]

theorem get?_insert (schedule : Schedule) (name other : String) (heights : Heights) :
    (schedule.insert other heights).get? name =
      (if name = other then some heights else none).or (schedule.get? name) := by
  rw [get?, insert, lookup_cons_eq_or]
  by_cases h : name = other
  · rw [if_pos h, Option.some_or, Option.some_or]
  · rw [lookup_filter_ne h]
    rfl

theorem get?_merge (schedule other : Schedule) (name : String) :
    (schedule.merge other).get? name = (other.get? name).or (schedule.get? name) := by
  obtain ⟨entries⟩ := other
  induction entries with
  | nil => rfl
  | cons entry entries ih =>
    have hmerge : schedule.merge ⟨entry :: entries⟩ =
        (schedule.merge ⟨entries⟩).insert entry.1 entry.2 := rfl
    rw [hmerge, get?_insert, ih, ← Option.or_assoc]
    congr 1
    exact (lookup_cons_eq_or name entry.1 entry.2 entries).symm

theorem get?_apply (schedule : Schedule) (change : Change) (name : String) :
    (change.apply schedule).get? name = (change.written? name).or (schedule.get? name) := by
  cases change with
  | insert other heights => exact get?_insert schedule name other heights
  | merge other => exact get?_merge schedule other name

theorem get?_foldl (schedule : Schedule) (changes : List Change) (name : String) :
    (changes.foldl Change.apply schedule).get? name =
      (changes.reverse.findSome? (·.written? name)).or (schedule.get? name) := by
  induction changes generalizing schedule with
  | nil => rfl
  | cons change changes ih =>
    rw [List.foldl_cons, ih, get?_apply, List.reverse_cons, List.findSome?_append, Option.or_assoc]
    rw [List.findSome?_singleton]

theorem get?_after (changes : List Change) (name : String) :
    (after changes).get? name = lastWritten? changes name := by
  rw [after, get?_foldl, lastWritten?, List.reverse_cons, List.findSome?_append, List.findSome?_singleton]
  rfl

section Lookup

variable {network : Network} {heights : Heights}

theorem heights_of_get? (h : schedule.get? s = some heights) : schedule.heights s = .ok heights := by
  rw [Schedule.heights, h]

theorem heights_of_isSpelling (hs : network.IsSpelling s) (hnone : schedule.get? s = none)
    (h : schedule.get? network.name = some heights) : schedule.heights s = .ok heights := by
  rw [Schedule.heights, hnone, Network.ofSpelling?_eq_some_iff.mpr hs, Option.bind_some, h]

theorem heights_of_unknown (hs : ∀ network : Network, ¬ network.IsSpelling s)
    (hnone : schedule.get? s = none) : schedule.heights s = .error (.unknownNetwork s) := by
  have hspelling : Network.ofSpelling? s = none :=
    Option.eq_none_iff_forall_ne_some.mpr fun network h =>
      hs network (Network.ofSpelling?_eq_some_iff.mp h)
  rw [Schedule.heights, hnone, hspelling, Option.bind_none]

/-- A rule that is in force for a text stays in force for it. -/
theorem rulesAt_mono (schedule : Schedule) {earlier later : UInt64} {before after : Rules}
    (hle : earlier ≤ later) (hbefore : schedule.rulesAt earlier s = .ok before)
    (hafter : schedule.rulesAt later s = .ok after) :
    ∀ flag ∈ Rules.flags, flag before → flag after := by
  obtain ⟨heights, hheights, rfl⟩ := map_eq_ok_iff.mp hbefore
  obtain ⟨_, hheights', rfl⟩ := map_eq_ok_iff.mp hafter
  obtain rfl := Except.ok.inj (hheights.symm.trans hheights')
  exact heights.rulesAt_mono hle

end Lookup

section After

variable {network : Network}

theorem lastWritten?_append (changes more : List Change) (name : String) :
    lastWritten? (changes ++ more) name =
      (more.reverse.findSome? (·.written? name)).or (lastWritten? changes name) := by
  rw [lastWritten?, ← List.cons_append, List.reverse_append, List.findSome?_append, lastWritten?]

theorem isRegular_insert {heights : Heights}
    (h : (∃ network : Network, name = network.name) ∨ Network.ofSpelling? name = none) :
    (Change.insert name heights).IsRegular := by
  intro other hother
  obtain rfl : other = name := by simpa [Change.written?] using hother
  exact h

theorem isRegular_builtin : (Change.merge builtin).IsRegular := by
  intro name h
  refine .inl ?_
  by_contra hname
  rw [not_exists] at hname
  have hmainnet : name ≠ "mainnet" := hname .mainnet
  have htestnet : name ≠ "testnet" := hname .testnet
  have hregtest : name ≠ "regtest" := hname .regtest
  have hnone : builtin.get? name = none := by
    rw [get?, builtin, lookup_cons_eq_or, lookup_cons_eq_or, lookup_cons_eq_or, if_neg hmainnet,
      if_neg htestnet, if_neg hregtest]
    rfl
  rw [Change.written?, hnone] at h
  cases h

/-- There is always something under the name of a network. -/
theorem exists_lastWritten? (changes : List Change) (network : Network) :
    ∃ heights, lastWritten? changes network.name = some heights := by
  have hbuiltin : (builtin.get? network.name).isSome := by cases network <;> decide
  rw [← Option.isSome_iff_exists, ← get?_after, after, get?_foldl, Option.isSome_or, hbuiltin,
    Bool.or_true]

/-- Of the spellings of a network only its name is a key. -/
theorem eq_name_of_lastWritten? (hregular : ∀ change ∈ changes, change.IsRegular)
    (hs : network.IsSpelling s) (h : (lastWritten? changes s).isSome) : s = network.name := by
  obtain ⟨heights, h⟩ := Option.isSome_iff_exists.mp h
  obtain ⟨change, hmem, hwritten⟩ := List.exists_of_findSome?_eq_some h
  have hchange : change.IsRegular := by
    rcases List.mem_cons.mp (List.mem_reverse.mp hmem) with rfl | hmem
    · exact isRegular_builtin
    · exact hregular change hmem
  rcases hchange s (Option.isSome_of_eq_some hwritten) with ⟨other, rfl⟩ | hnone
  · rw [other.isSpelling_name.unique hs]
  · rw [Network.ofSpelling?_eq_some_iff.mpr hs] at hnone
    cases hnone

theorem heights_after_of_isSpelling (hregular : ∀ change ∈ changes, change.IsRegular)
    (hs : network.IsSpelling s) :
    ∃ heights, lastWritten? changes network.name = some heights ∧
      (after changes).heights s = .ok heights := by
  obtain ⟨heights, hname⟩ := exists_lastWritten? changes network
  refine ⟨heights, hname, ?_⟩
  rw [← get?_after] at hname
  cases hkey : lastWritten? changes s with
  | none =>
    rw [← get?_after] at hkey
    exact heights_of_isSpelling hs hkey hname
  | some other =>
    obtain rfl := eq_name_of_lastWritten? hregular hs (Option.isSome_of_eq_some hkey)
    exact heights_of_get? hname

theorem rulesAt_after_of_isSpelling (hregular : ∀ change ∈ changes, change.IsRegular)
    (hs : network.IsSpelling s) (number : UInt64) :
    ∃ heights, lastWritten? changes network.name = some heights ∧
      (after changes).rulesAt number s = .ok (heights.rulesAt number) := by
  obtain ⟨heights, hname, hheights⟩ := heights_after_of_isSpelling hregular hs
  exact ⟨heights, hname, map_eq_ok_iff.mpr ⟨heights, hheights, rfl⟩⟩

/-- Changes that write nothing under the name of a network leave its rules as they are. -/
theorem rulesAt_after_append (hregular : ∀ change ∈ changes, change.IsRegular) {more : List Change}
    (hmore : ∀ change ∈ more, change.IsRegular ∧ change.written? network.name = none)
    (hs : network.IsSpelling s) (number : UInt64) :
    (after (changes ++ more)).rulesAt number s = (after changes).rulesAt number s := by
  have hall : ∀ change ∈ changes ++ more, change.IsRegular := by
    rw [List.forall_mem_append]
    exact ⟨hregular, fun change hmem => (hmore change hmem).1⟩
  have hnone : more.reverse.findSome? (·.written? network.name) = none :=
    List.findSome?_eq_none_iff.mpr fun change hmem => (hmore change (List.mem_reverse.mp hmem)).2
  obtain ⟨heights, hname, hbefore⟩ := rulesAt_after_of_isSpelling hregular hs number
  obtain ⟨_, hname', hafter⟩ := rulesAt_after_of_isSpelling hall hs number
  rw [lastWritten?_append, hnone, Option.none_or, hname] at hname'
  obtain rfl := Option.some.inj hname'
  exact hafter.trans hbefore.symm

end After

/-- Every spelling of a network selects the same heights. What was last written under a text itself comes
first, then what was last written under the name of the network that the text spells. Writing other networks
changes nothing, and a rule that is in force stays in force. -/
theorem spellings_select_same_rules (changes : List Change)
    (hregular : ∀ change ∈ changes, change.IsRegular) :
    let schedule := after changes
    (∀ name, schedule.get? name = lastWritten? changes name) ∧
    (∀ s heights, lastWritten? changes s = some heights → schedule.heights s = .ok heights) ∧
    (∀ s (network : Network), lastWritten? changes s = none → network.IsSpelling s →
      ∃ heights, lastWritten? changes network.name = some heights ∧ schedule.heights s = .ok heights) ∧
    (∀ s, lastWritten? changes s = none → (∀ network : Network, ¬ network.IsSpelling s) →
      schedule.heights s = .error (.unknownNetwork s)) ∧
    (∀ (network : Network) s t number, network.IsSpelling s → network.IsSpelling t →
      ∃ rules, schedule.rulesAt number s = .ok rules ∧ schedule.rulesAt number t = .ok rules) ∧
    (∀ (network : Network) s number more, network.IsSpelling s →
      (∀ change ∈ more, change.IsRegular ∧ change.written? network.name = none) →
        (after (changes ++ more)).rulesAt number s = schedule.rulesAt number s) ∧
    ∀ s earlier later before after, earlier ≤ later → schedule.rulesAt earlier s = .ok before →
      schedule.rulesAt later s = .ok after → ∀ flag ∈ Rules.flags, flag before → flag after := by
  intro schedule
  refine ⟨get?_after changes, fun s heights h => ?_, fun s network hkey hs => ?_, fun s hkey hs => ?_,
    fun network s t number hs ht => ?_, fun network s number more hs hmore => ?_,
    fun s earlier later before after hle hbefore hafter => ?_⟩
  · exact heights_of_get? ((get?_after changes s).trans h)
  · exact heights_after_of_isSpelling hregular hs
  · exact heights_of_unknown hs ((get?_after changes s).trans hkey)
  · obtain ⟨heights, hname, hs⟩ := rulesAt_after_of_isSpelling hregular hs number
    obtain ⟨_, hname', ht⟩ := rulesAt_after_of_isSpelling hregular ht number
    obtain rfl := Option.some.inj (hname.symm.trans hname')
    exact ⟨_, hs, ht⟩
  · exact rulesAt_after_append hregular hmore hs number
  · exact schedule.rulesAt_mono hle hbefore hafter

/-- A schedule with another network of its own, and other heights for one that is known. -/
theorem spellings_select_same_rules_regtest :
    let changes : List Change := [
      .insert "devnet" .fromGenesis, .merge ⟨[("regtest", { rskip92 := some 5 })]⟩]
    let schedule := after changes
    (∀ change ∈ changes, change.IsRegular) ∧ schedule.heights "devnet" = .ok .fromGenesis ∧
      Network.regtest.IsSpelling " 0x21" ∧
      (∃ heights, lastWritten? changes "regtest" = some heights ∧
        schedule.heights " 0x21" = .ok heights) ∧
      schedule.heights "ropsten" = .error (.unknownNetwork "ropsten") ∧
      (∃ rules, schedule.rulesAt 7 " 0x21" = .ok rules ∧ schedule.rulesAt 7 "RegTest" = .ok rules) ∧
      (after (changes ++ [.insert "mainnet" {}])).rulesAt 7 "33" = schedule.rulesAt 7 "33" ∧
      ∀ before after, schedule.rulesAt 4 "33" = .ok before → schedule.rulesAt 7 "33" = .ok after →
        ∀ flag ∈ Rules.flags, flag before → flag after := by
  intro changes schedule
  have hregular : ∀ change ∈ changes, change.IsRegular := by
    have hinsert : (Change.insert "devnet" .fromGenesis).IsRegular :=
      isRegular_insert (.inr (by decide))
    have hmerge : (Change.merge ⟨[("regtest", { rskip92 := some 5 })]⟩).IsRegular := by
      intro name h
      obtain rfl : name = "regtest" := by simpa [Change.written?, get?, lookup_cons_eq_or] using h
      exact .inl ⟨.regtest, rfl⟩
    simp only [changes, List.forall_mem_cons]
    exact ⟨hinsert, hmerge, nofun⟩
  have hspelling : ∀ s, Network.ofSpelling? s = some .regtest → Network.regtest.IsSpelling s :=
    fun s => Network.ofSpelling?_eq_some_iff.mp
  obtain ⟨-, hkey, hnetwork, hunknown, hsame, hother, hlater⟩ :=
    spellings_select_same_rules changes hregular
  refine ⟨hregular, hkey _ _ (by decide), hspelling _ (by decide +kernel),
    hnetwork _ _ (by decide) (hspelling _ (by decide +kernel)),
    hunknown _ (by decide) fun network h => ?_,
    hsame .regtest _ _ _ (hspelling _ (by decide)) (hspelling _ (by decide +kernel)),
    hother .regtest _ _ _ (hspelling _ (by decide)) ?_,
    fun before after => hlater _ _ _ before after (by decide)⟩
  · have hnone : Network.ofSpelling? "ropsten" = none := by decide
    cases hnone.symm.trans (Network.ofSpelling?_eq_some_iff.mpr h)
  · exact List.forall_mem_singleton.mpr ⟨isRegular_insert (.inl ⟨.mainnet, rfl⟩), rfl⟩

end Schedule

end BlockAudit

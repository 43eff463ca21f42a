import BlockAudit.Client.Window
import BlockAudit.Proofs.Client.Collector

/-! The window is a lawful collector: under every order of arrival it keeps to what is assumed of one. -/
namespace BlockAudit.Client.Window

variable {ε α : Type}

/-- The requests that are started, each with its answer if that is there. -/
def answers (window : Window ε α) : List (Option (Except ε α)) :=
  window.collected.map (fun a => some (.ok a)) ++ window.underWay

/-- A request that is under way without an answer. -/
def Awaits (window : Window ε α) (index : Nat) : Prop :=
  window.answers[index]? = some none

/-- Whether the first answer that is not collected is missing, or the error that ended the collection. -/
def Settled (window : Window ε α) : Prop :=
  match window.failure with
  | none => ∀ outcome, window.underWay.head? ≠ some (some outcome)
  | some error => window.underWay.head? = some (some (.error error))

/-- What holds of a window at all times. -/
structure Sound (limit total : Nat) (window : Window ε α) : Prop where
  limit_eq : window.limit = limit
  total_eq : window.total = total
  started_le : window.started ≤ total
  underWay_le : window.underWay.length ≤ limit
  /-- Requests are started as long as there is room. -/
  full : window.failure = none → window.underWay.length = limit ∨ window.started = total
  settled : window.Settled

section Answers

variable {window : Window ε α} {limit index total : Nat} {outcome : Except ε α} {collected : List α}
  {slots : List (Option (Except ε α))}

theorem length_answers (window : Window ε α) : window.answers.length = window.started := by
  rw [answers, started, List.length_append, List.length_map]

theorem answers_collectFrom (limit total : Nat) (collected : List α) (slots : List (Option (Except ε α))) :
    (collectFrom limit total collected slots).answers = collected.map (fun a => some (.ok a)) ++ slots := by
  fun_induction collectFrom limit total collected slots with
  | case1 collected a rest ih => rw [ih, List.map_append, List.append_assoc]; rfl
  | case2 collected error rest => rfl
  | case3 collected slots => rfl

theorem settled_collectFrom (limit total : Nat) (collected : List α) (slots : List (Option (Except ε α))) :
    (collectFrom limit total collected slots).Settled := by
  fun_induction collectFrom limit total collected slots with
  | case1 collected a rest ih => exact ih
  | case2 collected error rest => rfl
  | case3 collected slots hok herror =>
    intro outcome hhead
    obtain ⟨rest, rfl⟩ := List.head?_eq_some_iff.mp hhead
    cases outcome with
    | ok a => exact hok a rest rfl
    | error error => exact herror error rest rfl

theorem bounds_collectFrom (limit total : Nat) (collected : List α) (slots : List (Option (Except ε α))) :
    (collectFrom limit total collected slots).limit = limit ∧
      (collectFrom limit total collected slots).total = total := by
  fun_induction collectFrom limit total collected slots with
  | case1 collected a rest ih => exact ih
  | case2 collected error rest => exact ⟨rfl, rfl⟩
  | case3 collected slots => exact ⟨rfl, rfl⟩

theorem length_underWay_collectFrom (limit total : Nat) (collected : List α)
    (slots : List (Option (Except ε α))) :
    (collectFrom limit total collected slots).underWay.length ≤ slots.length := by
  fun_induction collectFrom limit total collected slots with
  | case1 collected a rest ih => exact ih.trans (Nat.le_succ _)
  | case2 collected error rest => rfl
  | case3 collected slots => rfl

/-- How many requests are started if the window is filled. -/
def room (window : Window ε α) : Nat :=
  min (window.limit - window.underWay.length) (window.total - window.started)

theorem answers_fill (window : Window ε α) :
    window.fill.answers = window.answers ++ List.replicate window.room none :=
  (List.append_assoc _ _ _).symm

theorem started_fill (window : Window ε α) : window.fill.started = window.started + window.room := by
  rw [← length_answers, answers_fill, List.length_append, List.length_replicate, length_answers]

theorem length_underWay_fill (window : Window ε α) :
    window.fill.underWay.length = window.underWay.length + window.room := by
  rw [fill, List.length_append, List.length_replicate, ← room]

/-- Filling a window takes it to where it has no room or nothing to start. -/
theorem sound_fill (hfailure : window.failure = none) (hsettled : window.Settled)
    (hstarted : window.started ≤ window.total) (hunderWay : window.underWay.length ≤ window.limit) :
    window.fill.Sound window.limit window.total where
  limit_eq := rfl
  total_eq := rfl
  started_le := by
    rw [started_fill, room]
    omega
  underWay_le := by
    rw [length_underWay_fill, room]
    omega
  full _ := by
    rw [length_underWay_fill, started_fill, room]
    omega
  settled := by
    unfold Settled at hsettled ⊢
    rw [show window.fill.failure = none from hfailure]
    rw [hfailure] at hsettled
    intro outcome hhead
    rw [fill, List.head?_append] at hhead
    cases hunder : window.underWay.head? with
    | some slot =>
      rw [hunder] at hhead
      exact hsettled outcome (hunder.trans hhead)
    | none =>
      rw [hunder, Option.none_or] at hhead
      cases (List.mem_replicate.mp (List.mem_of_head? hhead)).2

theorem started_collectFrom (limit total : Nat) (collected : List α) (slots : List (Option (Except ε α))) :
    (collectFrom limit total collected slots).started = collected.length + slots.length := by
  rw [← length_answers, answers_collectFrom, List.length_append, List.length_map]

theorem answers_settle (window : Window ε α) :
    ∃ count, window.settle.answers = window.answers ++ List.replicate count none := by
  have hkept := answers_collectFrom window.limit window.total window.collected window.underWay
  unfold settle
  dsimp only
  split
  · exact ⟨0, by rw [hkept, List.replicate_zero, List.append_nil, answers]⟩
  · exact ⟨_, by rw [answers_fill, hkept, ← answers]⟩

theorem sound_settle (hstarted : window.started ≤ window.total)
    (hunderWay : window.underWay.length ≤ window.limit) : window.settle.Sound window.limit window.total := by
  obtain ⟨hlimit, htotal⟩ :=
    bounds_collectFrom window.limit window.total window.collected window.underWay
  have hsettled := settled_collectFrom window.limit window.total window.collected window.underWay
  have hlength := length_underWay_collectFrom window.limit window.total window.collected window.underWay
  have hstarted' := started_collectFrom window.limit window.total window.collected window.underWay
  rw [← started] at hstarted'
  unfold settle
  dsimp only
  split
  · rename_i hfailure
    exact ⟨hlimit, htotal, hstarted' ▸ hstarted, hlength.trans hunderWay,
      fun hnone => by simp [hnone] at hfailure, hsettled⟩
  · rename_i hfailure
    have hnone := Option.not_isSome_iff_eq_none.mp hfailure
    have hsound := sound_fill hnone hsettled (by rw [hstarted', htotal]; exact hstarted)
      (by rw [hlimit]; exact hlength.trans hunderWay)
    rwa [hlimit, htotal] at hsound

theorem sound_start (limit total : Nat) : (start limit total : Window ε α).Sound limit total :=
  @sound_fill _ _ { limit, total } rfl (fun _ => nofun) (Nat.zero_le _) (Nat.zero_le _)

theorem answers_start (limit total : Nat) :
    ∃ count, (start limit total : Window ε α).answers = List.replicate count none :=
  ⟨_, answers_fill _⟩

end Answers

section Answer

variable {window : Window ε α} {limit index total : Nat} {outcome : Except ε α}

theorem Awaits.collected_le (h : window.Awaits index) : window.collected.length ≤ index := by
  unfold Awaits answers at h
  by_contra hlt
  rw [List.getElem?_append_left (by simpa using hlt)] at h
  simp at h

theorem Awaits.lt_started (h : window.Awaits index) : index < window.started := by
  rw [← length_answers]
  exact (List.getElem?_eq_some_iff.mp h).1

/-- The window with an answer in its place, before anything is collected. -/
def place (window : Window ε α) (index : Nat) (outcome : Except ε α) : Window ε α :=
  { window with underWay := window.underWay.set (index - window.collected.length) (some outcome) }

theorem answers_place (h : window.collected.length ≤ index) :
    (window.place index outcome).answers = window.answers.set index (some outcome) := by
  rw [answers, answers, List.set_append_right _ _ (by simpa using h), List.length_map]
  rfl

theorem answer_eq (hfailure : window.failure = none) :
    window.answer index outcome = (window.place index outcome).settle := by
  rw [answer, hfailure]
  rfl

theorem failure_of_not_isDone (h : ¬ window.isDone) : window.failure = none := by
  unfold isDone at h
  simp_all

/-- An answer takes its place, and nothing else changes but that further requests are started. -/
theorem answers_answer (hopen : ¬ window.isDone) (h : window.Awaits index) (outcome : Except ε α) :
    ∃ count, (window.answer index outcome).answers =
      window.answers.set index (some outcome) ++ List.replicate count none := by
  rw [answer_eq (failure_of_not_isDone hopen), ← answers_place h.collected_le]
  exact answers_settle _

theorem started_answer (hopen : ¬ window.isDone) (h : window.Awaits index) (outcome : Except ε α) :
    window.started ≤ (window.answer index outcome).started := by
  obtain ⟨count, hanswers⟩ := answers_answer hopen h outcome
  rw [← length_answers, ← length_answers, hanswers, List.length_append, List.length_set]
  exact Nat.le_add_right _ _

theorem getElem?_answers_answer (hopen : ¬ window.isDone) (h : window.Awaits index)
    (outcome : Except ε α) (place : Nat) :
    (window.answer index outcome).answers[place]? =
      if place = index then some (some outcome)
      else if place < window.started then window.answers[place]?
      else if place < (window.answer index outcome).started then some none
      else none := by
  obtain ⟨count, hanswers⟩ := answers_answer hopen h outcome
  have hlt := h.lt_started
  have hstarted : (window.answer index outcome).started = window.started + count := by
    rw [← length_answers, hanswers, List.length_append, List.length_set, List.length_replicate,
      length_answers]
  rw [hanswers, hstarted]
  rcases Nat.lt_or_ge place window.started with hplace | hplace
  · rw [List.getElem?_append_left (by rwa [List.length_set, length_answers]), List.getElem?_set,
      length_answers]
    by_cases hindex : place = index
    · simp [hindex, hlt]
    · simp [hindex, hplace, Ne.symm hindex]
  · have hindex : place ≠ index := by omega
    rw [List.getElem?_append_right (by rwa [List.length_set, length_answers]), List.length_set,
      length_answers, List.getElem?_replicate, if_neg hindex, if_neg hplace.not_gt]
    exact if_congr (by omega) rfl rfl

theorem Sound.answer (hsound : window.Sound limit total) (hopen : ¬ window.isDone) (index : Nat)
    (outcome : Except ε α) : (window.answer index outcome).Sound limit total := by
  rw [answer_eq (failure_of_not_isDone hopen)]
  have hlength : (window.place index outcome).underWay.length = window.underWay.length := List.length_set
  have hstarted : (window.place index outcome).started = window.started := by
    rw [started, started, hlength]
    rfl
  have hplaced := @sound_settle _ _ (window.place index outcome)
  rw [hlength, hstarted, show (window.place index outcome).limit = limit from hsound.limit_eq,
    show (window.place index outcome).total = total from hsound.total_eq] at hplaced
  exact hplaced hsound.started_le hsound.underWay_le

/-- As long as a window is not done, it waits for the first answer that is not collected. -/
theorem Sound.awaits_collected (hsound : window.Sound limit total) (hpos : 0 < limit)
    (hopen : ¬ window.isDone) : window.Awaits window.collected.length := by
  have hfailure := failure_of_not_isDone hopen
  have hsettled := hsound.settled
  unfold Settled at hsettled
  rw [hfailure] at hsettled
  unfold Awaits answers
  rw [List.getElem?_append_right (by simp), List.length_map, Nat.sub_self, ← List.head?_eq_getElem?]
  cases hhead : window.underWay.head? with
  | some slot =>
    cases slot with
    | none => rfl
    | some outcome => exact absurd hhead (hsettled outcome)
  | none =>
    -- With nothing under way there would be room for the requests that are not started.
    rw [List.head?_eq_none_iff] at hhead
    have hfull := hsound.full hfailure
    rw [isDone, hfailure] at hopen
    rw [started, hhead, List.length_nil, Nat.add_zero] at hfull
    simp only [Option.isSome_none, Bool.false_or, beq_iff_eq, hsound.total_eq] at hopen
    omega

end Answer

section Lawful

variable {limit total index : Nat} {window : Window ε α} {outputs : List (Nat × Except ε α)}
  {output : Except ε α}

/-- What holds of a window that was given these outputs. -/
structure Holds (limit total : Nat) (outputs : List (Nat × Except ε α)) (window : Window ε α) : Prop where
  sound : window.Sound limit total
  mem_iff : ∀ i output, (i, output) ∈ outputs ↔ window.answers[i]? = some (some output)
  length_add : outputs.length + window.answers.countP Option.isNone = window.started

theorem holds_start (limit total : Nat) : (start limit total : Window ε α).Holds limit total [] := by
  obtain ⟨count, hanswers⟩ := @answers_start ε α limit total
  refine ⟨sound_start limit total, fun i output => ?_, ?_⟩
  · rw [hanswers, List.getElem?_replicate]
    refine iff_of_false List.not_mem_nil ?_
    split <;> simp
  · have hlength := length_answers (start limit total : Window ε α)
    rw [← hlength, hanswers, List.countP_replicate]
    simp

/-- A request that is started is answered or awaited. -/
theorem Holds.awaits (h : window.Holds limit total outputs) (hstarted : index < window.started)
    (hnew : ∀ output, (index, output) ∉ outputs) : window.Awaits index := by
  rw [← length_answers] at hstarted
  unfold Awaits
  rw [List.getElem?_eq_getElem hstarted]
  cases hslot : window.answers[index] with
  | none => rfl
  | some output =>
    have hthere : window.answers[index]? = some (some output) := by
      rw [List.getElem?_eq_getElem hstarted, hslot]
    exact absurd ((h.mem_iff index output).mpr hthere) (hnew output)

theorem Holds.answer (h : window.Holds limit total outputs) (hopen : ¬ window.isDone)
    (hawaits : window.Awaits index) (output : Except ε α) :
    (window.answer index output).Holds limit total (outputs ++ [(index, output)]) := by
  refine ⟨h.sound.answer hopen index output, fun i other => ?_, ?_⟩
  · rw [getElem?_answers_answer hopen hawaits, List.mem_append, List.mem_singleton, h.mem_iff,
      Prod.mk.injEq]
    by_cases hhere : i = index
    · rw [if_pos hhere, hhere, show window.answers[index]? = some none from hawaits]
      simp [eq_comm]
    · rw [if_neg hhere, or_iff_left fun hlast => hhere hlast.1]
      split
      · rfl
      · rename_i hbeyond
        rw [← length_answers] at hbeyond
        rw [List.getElem?_eq_none (Nat.le_of_not_lt hbeyond)]
        split <;> simp
  · obtain ⟨count, hanswers⟩ := answers_answer hopen hawaits output
    obtain ⟨hlt, hnone⟩ := List.getElem?_eq_some_iff.mp hawaits
    have hlength := length_answers (window.answer index output)
    have hbefore := h.length_add
    have hpos : 0 < window.answers.countP Option.isNone :=
      List.countP_pos_iff.mpr ⟨_, List.getElem_mem hlt, by rw [hnone]; rfl⟩
    rw [hanswers, List.length_append, List.length_set, List.length_replicate, length_answers] at hlength
    rw [hanswers, List.countP_append, List.countP_set hlt, hnone, List.countP_replicate,
      List.length_append, List.length_singleton, ← hlength]
    simp only [Option.isNone_none, Option.isNone_some, ↓reduceIte, Bool.false_eq_true]
    omega

theorem holds_of_reaches {state : (collector : Collector ε α).State}
    (hreaches : collector.Reaches limit total outputs state) : Holds limit total outputs state := by
  induction hreaches with
  | start => exact holds_start limit total
  | answer hreaches hopen hstarted hnew output ih => exact ih.answer hopen (ih.awaits hstarted hnew) output

theorem Sound.countP_isNone_le (hsound : window.Sound limit total) :
    window.answers.countP Option.isNone ≤ limit := by
  have hcollected : (window.collected.map fun a => (some (.ok a) : Option (Except ε α))).countP
      Option.isNone = 0 := by
    rw [List.countP_map, List.countP_eq_zero]
    exact fun _ _ => Bool.false_ne_true
  rw [answers, List.countP_append, hcollected, Nat.zero_add]
  exact List.countP_le_length.trans hsound.underWay_le

/-- What the collection was given are the first answers. -/
theorem Sound.answers_of_yielded (hsound : window.Sound limit total)
    (h : window.yielded[index]? = some output) : window.answers[index]? = some (some output) := by
  have hsettled := hsound.settled
  unfold Settled at hsettled
  unfold yielded at h
  rw [answers]
  rcases Nat.lt_or_ge index window.collected.length with hlt | hge
  · rw [List.getElem?_append_left (by simpa using hlt), List.getElem?_map,
      List.getElem?_eq_getElem hlt] at h
    obtain rfl := Option.some.inj h
    rw [List.getElem?_append_left (by simpa using hlt), List.getElem?_map, List.getElem?_eq_getElem hlt]
    rfl
  · rw [List.getElem?_append_right (by simpa using hge), List.length_map] at h ⊢
    cases hfailure : window.failure with
    | none =>
      rw [hfailure] at h
      cases h
    | some error =>
      rw [hfailure] at h hsettled
      obtain ⟨hfirst, hend⟩ := List.getElem?_eq_some_iff.mp h
      have hzero : index - window.collected.length = 0 := Nat.lt_one_iff.mp hfirst
      rw [hzero, ← List.head?_eq_getElem?, hsettled]
      simp only [hzero] at hend
      rw [← hend]
      rfl

theorem isDone_iff (htotal : window.total = total) :
    window.isDone ↔ (∃ error, .error error ∈ window.yielded) ∨ window.yielded.length = total := by
  unfold isDone yielded
  cases hfailure : window.failure with
  | none => simp [htotal]
  | some error => simp

theorem result_eq_mapM (window : Window ε α) : window.result = window.yielded.mapM id := by
  unfold result yielded
  cases window.failure with
  | none => exact (Collector.mapM_id_eq_ok_iff.mpr (List.append_nil _)).symm
  | some error =>
    rw [List.mapM_append, Collector.mapM_id_eq_ok_iff.mpr rfl]
    rfl

/-- The window keeps to what is assumed of a collector. -/
theorem lawful_collector : (collector : Collector ε α).Lawful where
  keeps {limit total outputs window} hpos hreaches := by
    have hholds := holds_of_reaches hreaches
    have hsound := hholds.sound
    refine ⟨hsound.started_le, ?_, fun i output h => ?_, isDone_iff hsound.total_eq,
      fun _ => result_eq_mapM window, fun hopen => ?_⟩
    · have hnarrow := hsound.countP_isNone_le
      have hlength := hholds.length_add
      change window.started ≤ _
      omega
    · exact (hholds.mem_iff i output).mpr (hsound.answers_of_yielded h)
    · have hawaits := hsound.awaits_collected hpos hopen
      refine ⟨_, hawaits.lt_started, fun output hmem => ?_⟩
      have hanswered := (hholds.mem_iff _ output).mp hmem
      cases hanswered.symm.trans hawaits
  grows {limit total index outputs window} hpos hreaches hopen hstarted hnew output :=
    started_answer hopen ((holds_of_reaches hreaches).awaits hstarted hnew) output

end Lawful

end BlockAudit.Client.Window

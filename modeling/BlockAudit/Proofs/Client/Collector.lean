import BlockAudit.Client.Collector
import BlockAudit.Proofs.Outcome
import Mathlib.Data.List.Basic
import Mathlib.Order.Fin.Basic

/-!
What is assumed of a collector. What it collects in the end, or the error that ends the collection, then
depends on the outputs of the futures alone, whatever the order of their arrival.
-/
namespace BlockAudit.Client.Collector

variable {ε α : Type}

/-- The states of a collector, with the outputs it was given. As long as the collection has not ended, any
future that is started may have an output next. -/
inductive Reaches (collector : Collector ε α) (limit total : Nat) :
    List (Nat × Except ε α) → collector.State → Prop where
  | start : Reaches collector limit total [] (collector.start limit total)
  | answer {outputs : List (Nat × Except ε α)} {state : collector.State} {index : Nat}
      (hreaches : Reaches collector limit total outputs state) (hopen : ¬ collector.isDone state)
      (hstarted : index < collector.started state) (hnew : ∀ output, (index, output) ∉ outputs)
      (output : Except ε α) :
      Reaches collector limit total (outputs ++ [(index, output)]) (collector.answer state index output)

/-- What a collector keeps to in a state with these outputs. -/
structure Keeps (collector : Collector ε α) (limit total : Nat) (outputs : List (Nat × Except ε α))
    (state : collector.State) : Prop where
  started_le : collector.started state ≤ total
  /-- Only as many futures as the limit are started and have no output. -/
  limited : collector.started state ≤ outputs.length + limit
  /-- Outputs are yielded in list order. -/
  in_order : ∀ i output, (collector.yielded state)[i]? = some output → (i, output) ∈ outputs
  /-- The collection ends at the first error, or after all outputs. -/
  ends : collector.isDone state ↔
    (∃ error, .error error ∈ collector.yielded state) ∨ (collector.yielded state).length = total
  collects : collector.isDone state → collector.result state = (collector.yielded state).mapM id
  /-- Until then, the collection waits for a future that is started. -/
  waits : ¬ collector.isDone state →
    ∃ index < collector.started state, ∀ output, (index, output) ∉ outputs

/-- A collector that keeps to this in every state, and goes on to further futures only. -/
structure Lawful (collector : Collector ε α) : Prop where
  keeps {limit total : Nat} {outputs : List (Nat × Except ε α)} {state : collector.State} (hpos : 0 < limit)
    (hreaches : collector.Reaches limit total outputs state) : collector.Keeps limit total outputs state
  grows {limit total index : Nat} {outputs : List (Nat × Except ε α)} {state : collector.State}
    (hpos : 0 < limit) (hreaches : collector.Reaches limit total outputs state)
    (hopen : ¬ collector.isDone state) (hstarted : index < collector.started state)
    (hnew : ∀ output, (index, output) ∉ outputs) (output : Except ε α) :
    collector.started state ≤ collector.started (collector.answer state index output)

section Outputs

variable {outputs : List (Except ε α)} {collected : List α} {error : ε}

theorem mapM_id_eq_ok_iff : outputs.mapM id = .ok collected ↔ outputs = collected.map .ok := by
  induction outputs generalizing collected with
  | nil => cases collected <;> simp
  | cons output rest ih =>
    rw [List.mapM_cons, bind_eq_ok_iff, id_eq]
    constructor
    · rintro ⟨a, rfl, hrest⟩
      obtain ⟨others, hothers, hcollected⟩ := bind_eq_ok_iff.mp hrest
      cases hcollected
      rw [List.map_cons, ih.mp hothers]
    · intro heq
      cases collected with
      | nil => cases heq
      | cons a others =>
        obtain ⟨rfl, hothers⟩ := List.cons_eq_cons.mp heq
        exact ⟨a, rfl, bind_eq_ok_iff.mpr ⟨others, ih.mpr hothers, rfl⟩⟩

/-- The error is that of the first output that is one. -/
theorem exists_of_mapM_id_eq_error (h : outputs.mapM id = .error error) :
    ∃ (front : List α) (rest : List (Except ε α)), outputs = front.map .ok ++ .error error :: rest := by
  induction outputs with
  | nil => cases h
  | cons output rest ih =>
    rw [List.mapM_cons, id_eq] at h
    cases output with
    | error first =>
      cases h
      exact ⟨[], rest, rfl⟩
    | ok a =>
      rcases bind_eq_error_iff.mp h with hfirst | ⟨b, -, hrest⟩
      · cases hfirst
      · rcases bind_eq_error_iff.mp hrest with hothers | ⟨others, -, hend⟩
        · obtain ⟨front, last, rfl⟩ := ih hothers
          exact ⟨a :: front, last, rfl⟩
        · cases hend

end Outputs

section Result

variable {collector : Collector ε α} {limit total : Nat} {outputs : List (Nat × Except ε α)}
  {state : collector.State} {outcomes : Fin total → Except ε α}
  (hlawful : collector.Lawful) (hpos : 0 < limit)

include hlawful hpos

theorem Reaches.lt_total (hreaches : collector.Reaches limit total outputs state) {index : Nat}
    {output : Except ε α} (h : (index, output) ∈ outputs) : index < total := by
  induction hreaches with
  | start => cases h
  | answer hreaches hopen hstarted hnew new ih =>
    rcases List.mem_append.mp h with hbefore | hlast
    · exact ih hbefore
    · obtain ⟨rfl, -⟩ := Prod.mk.inj (List.mem_singleton.mp hlast)
      exact hstarted.trans_le (hlawful.keeps hpos hreaches).started_le

variable (houtputs : ∀ i output, (i.val, output) ∈ outputs → outcomes i = output)

include houtputs

theorem Reaches.exists_outcome (hreaches : collector.Reaches limit total outputs state) {place : Nat}
    {output : Except ε α} (h : (collector.yielded state)[place]? = some output) :
    ∃ i : Fin total, i.val = place ∧ outcomes i = output := by
  have hmem := (hlawful.keeps hpos hreaches).in_order place output h
  exact ⟨⟨place, hreaches.lt_total hlawful hpos hmem⟩, rfl, houtputs _ output hmem⟩

/-- When a collection has ended, either everything is collected, or all before an error. -/
theorem Reaches.cases_of_isDone (hreaches : collector.Reaches limit total outputs state)
    (hdone : collector.isDone state) :
    (∃ collected : List α, collector.result state = .ok collected ∧ collected.length = total ∧
        ∀ (i : Fin total) (a : α), collected[i.val]? = some a → outcomes i = .ok a) ∨
      ∃ (i : Fin total) (error : ε), collector.result state = .error error ∧
        outcomes i = .error error ∧ ∀ j < i, ∃ a, outcomes j = .ok a := by
  have hkeeps := hlawful.keeps hpos hreaches
  have hresult := hkeeps.collects hdone
  cases hmap : (collector.yielded state).mapM id with
  | ok collected =>
    left
    have hyielded := mapM_id_eq_ok_iff.mp hmap
    refine ⟨collected, hresult.trans hmap, ?_, fun i a ha => ?_⟩
    · rcases hkeeps.ends.mp hdone with ⟨error, herror⟩ | hlength
      · rw [hyielded] at herror
        obtain ⟨a, -, ha⟩ := List.mem_map.mp herror
        cases ha
      · rwa [hyielded, List.length_map] at hlength
    · have hplace : (collector.yielded state)[i.val]? = some (.ok a) := by
        rw [hyielded, List.getElem?_map, ha]
        rfl
      obtain ⟨j, hj, houtcome⟩ := hreaches.exists_outcome hlawful hpos houtputs hplace
      rwa [← Fin.ext hj]
  | error error =>
    right
    obtain ⟨front, rest, hyielded⟩ := exists_of_mapM_id_eq_error hmap
    have hplace : (collector.yielded state)[front.length]? = some (.error error) := by
      rw [hyielded, List.getElem?_append_right (by simp)]
      simp
    obtain ⟨i, hi, houtcome⟩ := hreaches.exists_outcome hlawful hpos houtputs hplace
    refine ⟨i, error, hresult.trans hmap, houtcome, fun j hj => ?_⟩
    have hlt : j.val < front.length := hi ▸ hj
    have hbefore : (collector.yielded state)[j.val]? = some (.ok front[j.val]) := by
      rw [hyielded, List.getElem?_append_left (by simpa using hlt), List.getElem?_map,
        List.getElem?_eq_getElem hlt]
      rfl
    obtain ⟨other, hother, hok⟩ := hreaches.exists_outcome hlawful hpos houtputs hbefore
    obtain rfl := Fin.ext hother
    exact ⟨_, hok⟩

/-- If no output is an error, all are collected. -/
theorem Reaches.result_eq_ok_iff (hreaches : collector.Reaches limit total outputs state)
    (hdone : collector.isDone state) (collected : List α) :
    collector.result state = .ok collected ↔
      collected.length = total ∧ ∀ i a, collected[i.val]? = some a → outcomes i = .ok a := by
  rcases hreaches.cases_of_isDone hlawful hpos houtputs hdone with
    ⟨all, hresult, hall, hok⟩ | ⟨i, error, hresult, hi, -⟩
  · rw [hresult, Except.ok.injEq]
    constructor
    · rintro rfl
      exact ⟨hall, hok⟩
    · rintro ⟨htotal, hassigned⟩
      refine List.ext_getElem (hall.trans htotal.symm) fun i hi hi' => ?_
      have hleft := hok ⟨i, hall ▸ hi⟩ _ (List.getElem?_eq_getElem hi)
      have hright := hassigned ⟨i, hall ▸ hi⟩ _ (List.getElem?_eq_getElem hi')
      exact Except.ok.inj (hleft.symm.trans hright)
  · rw [hresult]
    refine iff_of_false nofun ?_
    rintro ⟨htotal, hassigned⟩
    have hok := hassigned i _ (List.getElem?_eq_getElem (i.isLt.trans_eq htotal.symm))
    cases hi.symm.trans hok

/-- The first error in list order ends the collection. -/
theorem Reaches.result_eq_error_iff (hreaches : collector.Reaches limit total outputs state)
    (hdone : collector.isDone state) (error : ε) :
    collector.result state = .error error ↔
      ∃ i, outcomes i = .error error ∧ ∀ j < i, ∃ a, outcomes j = .ok a := by
  rcases hreaches.cases_of_isDone hlawful hpos houtputs hdone with
    ⟨all, hresult, hall, hok⟩ | ⟨i, first, hresult, hfirst, hbefore⟩
  · rw [hresult]
    refine iff_of_false nofun ?_
    rintro ⟨i, herror, -⟩
    have hok := hok i _ (List.getElem?_eq_getElem (i.isLt.trans_eq hall.symm))
    cases herror.symm.trans hok
  · rw [hresult, Except.error.injEq]
    constructor
    · rintro rfl
      exact ⟨i, hfirst, hbefore⟩
    · rintro ⟨other, herror, hother⟩
      -- Of two errors, one would come before the other.
      rcases lt_trichotomy i other with hless | rfl | hless
      · obtain ⟨a, ha⟩ := hother _ hless
        cases ha.symm.trans hfirst
      · exact Except.error.inj (hfirst.symm.trans herror)
      · obtain ⟨a, ha⟩ := hbefore other hless
        cases ha.symm.trans herror

end Result

end BlockAudit.Client.Collector

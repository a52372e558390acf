import LexPaint.Measurement
import LexPaint.Proofs.MergedMetrics

set_option relaxedAutoImplicit false
set_option autoImplicit false

/-!
# Measurements in any order

Measurements keep the times of passes by kind and size, and beside them the averages, which are computed
anew with each pass, and sums that are counted along. What is kept twice agrees, and all that is read off
measurements depends on which passes were recorded and not on their order. So do the complaints, since
they are made of averages and of the share of repairs.

## Main definitions

* `Measurement.ofPasses`: the measurements of some passes, the latest first.
* `Measurement.timesOf`: the times of the passes of one key.
* `Measurement.Holds`: whether the counters can hold some passes.
* `Measurement.Findings`, `Measurement.findings`: all that is read off measurements.

## Main results

* `Measurement.lookup_passTimes`, `Measurement.averages_ofPasses`: what is kept under each key.
* `Measurement.record_ofPasses`: one more pass.
* `Measurement.recordAll_eq`: several passes.
* `Measurement.findings_perm`: findings do not depend on the order.
* `Measurement.findings_recordAll`: the findings of passes that are recorded in any order.
-/

namespace LexPaint

open FinishedPass (longest longest_perm sum_map_le_of_sublist)

/-- What the pass is grouped by. -/
def FinishedPass.key (pass : FinishedPass) : PassKey :=
  ⟨pass.kind, .ofBytes pass.bytes⟩

/-- All keys are listed. -/
lemma PassKey.mem_all (key : PassKey) : key ∈ all := by
  obtain ⟨kind, size⟩ := key
  cases kind <;> cases size <;> decide

namespace Measurement

variable {α β : Type} {key k : PassKey} {change : Option α → α} {l : List (PassKey × α)}
  {pass : FinishedPass} {ps qs : List FinishedPass}

/-! ### Entries by key -/

/-- The first entry of a key counts. -/
lemma lookup_entry {other : PassKey} {a : α} :
    ((other, a) :: l).lookup k = if k = other then some a else l.lookup k := by
  by_cases hk : k = other
  · simp [hk]
  · rw [List.lookup_cons, beq_false_of_ne hk, if_neg hk]

/-- Only the entry of the key is changed.

**Proof sketch.** Induction on the entries. -/
lemma lookup_update : (update key change l).lookup k =
    if k = key then some (change (l.lookup key)) else l.lookup k := by
  induction l with
  | nil => rw [update, lookup_entry]; rfl
  | cons entry rest ih =>
    obtain ⟨other, a⟩ := entry
    rw [update]
    by_cases hother : other = key
    · subst hother
      rw [if_pos rfl, lookup_entry, lookup_entry, lookup_entry, if_pos rfl]
      split <;> rfl
    · rw [if_neg hother, lookup_entry, lookup_entry, lookup_entry, ih, if_neg (Ne.symm hother)]
      by_cases hk : k = other
      · rw [if_pos hk, if_pos hk, if_neg (hk ▸ hother)]
      · rw [if_neg hk, if_neg hk]

/-- What is computed from the entries is looked up like the entries. -/
lemma lookup_map {f : α → β} :
    (l.map fun entry => (entry.1, f entry.2)).lookup k = (l.lookup k).map f := by
  induction l with
  | nil => rfl
  | cons entry rest ih =>
    obtain ⟨other, a⟩ := entry
    rw [List.map_cons, lookup_entry, lookup_entry, ih]
    split <;> rfl

/-- What is computed from the entries is changed along with them.

**Proof sketch.** Induction on the entries. -/
lemma map_update {f : α → β} {b : β} (h : f (change (l.lookup key)) = b) :
    (update key change l).map (fun entry => (entry.1, f entry.2)) =
      update key (fun _ => b) (l.map fun entry => (entry.1, f entry.2)) := by
  induction l with
  | nil => rw [update, List.map_cons]; exact congrArg (fun b => [(key, b)]) h
  | cons entry rest ih =>
    obtain ⟨other, a⟩ := entry
    rw [lookup_entry] at h
    rw [List.map_cons, update, update]
    by_cases hother : other = key
    · subst hother
      rw [if_pos rfl] at h
      rw [if_pos rfl, if_pos rfl, List.map_cons, ← h]
    · rw [if_neg (Ne.symm hother)] at h
      rw [if_neg hother, if_neg hother, List.map_cons, ih h]

/-- An update adds at most its own key. -/
lemma mem_keys_update :
    k ∈ (update key change l).map Prod.fst ↔ k = key ∨ k ∈ l.map Prod.fst := by
  induction l with
  | nil => simp [update]
  | cons entry rest ih =>
    obtain ⟨other, a⟩ := entry
    rw [update]
    by_cases hother : other = key
    · subst hother
      simp
    · rw [if_neg hother, List.map_cons, List.mem_cons, List.map_cons, List.mem_cons, ih]
      exact or_left_comm

/-- A key has one entry.

**Proof sketch.** Induction on the entries. The key is appended only where no entry has it. -/
lemma nodup_keys_update (h : (l.map Prod.fst).Nodup) :
    ((update key change l).map Prod.fst).Nodup := by
  induction l with
  | nil => simp [update]
  | cons entry rest ih =>
    obtain ⟨other, a⟩ := entry
    rw [List.map_cons, List.nodup_cons] at h
    rw [update]
    by_cases hother : other = key
    · rw [if_pos hother, List.map_cons, List.nodup_cons]
      exact h
    · rw [if_neg hother, List.map_cons, List.nodup_cons, mem_keys_update]
      exact ⟨fun hmem => hmem.elim hother h.1, ih h.2⟩

/-- One more time under a key is one more in the number of times under any keys that it belongs to.

**Proof sketch.** Induction on the entries. -/
lemma sum_lengths_update {p : PassKey → Bool} {time : Nat} {l : List (PassKey × List Nat)} :
    (((update key (fun times => time :: times.getD []) l).filter fun entry => p entry.1).map
        fun entry => entry.2.length).sum =
      ((l.filter fun entry => p entry.1).map fun entry => entry.2.length).sum +
        if p key then 1 else 0 := by
  induction l with
  | nil => cases hp : p key <;> simp [update, hp]
  | cons entry rest ih =>
    obtain ⟨other, times⟩ := entry
    rw [update]
    by_cases hother : other = key
    · subst hother
      cases hp : p other with
      | true => simp [hp]; omega
      | false => simp [hp]
    · rw [if_neg hother]
      cases hp : p other with
      | true => simp [hp, ih]; omega
      | false => simp [hp, ih]

/-! ### The measurements of some passes -/

/-- The measurements of some passes, the latest first. -/
def ofPasses (ps : List FinishedPass) : Measurement :=
  ps.foldr (fun pass m => m.withPass pass.kind pass.bytes pass.time) empty

/-- The times of the passes of one key. -/
def timesOf (ps : List FinishedPass) (key : PassKey) : List Nat :=
  (ps.filter (·.key == key)).map (·.time)

/-- The times of the passes over whole documents. -/
def fullTimes (ps : List FinishedPass) : List Nat :=
  (ps.filter (·.kind != .linesOnly)).map (·.time)

/-- The time of one more pass is a time of its key. -/
lemma timesOf_cons : timesOf (pass :: ps) key =
    if pass.key = key then pass.time :: timesOf ps key else timesOf ps key := by
  by_cases hkey : pass.key = key <;> simp [timesOf, hkey]

/-- One more pass, field by field. -/
lemma ofPasses_cons : ofPasses (pass :: ps) =
    let passTimes := update pass.key (fun times => pass.time :: times.getD []) (ofPasses ps).passTimes
    { passTimes
      averages := update pass.key (fun _ => average ((passTimes.lookup pass.key).getD []))
        (ofPasses ps).averages
      maxTime := max (ofPasses ps).maxTime pass.time
      passes := (ofPasses ps).passes + 1
      fullBytes := (ofPasses ps).fullBytes + pass.rescanned
      fullTime := (ofPasses ps).fullTime + if pass.kind = .linesOnly then 0 else pass.time } := by
  have hcons : ofPasses (pass :: ps) = (ofPasses ps).withPass pass.kind pass.bytes pass.time := rfl
  rw [hcons, withPass, FinishedPass.rescanned]
  cases hkind : pass.kind <;> simp [FinishedPass.key, hkind]

/-- One more pass adds its time under its key. -/
lemma passTimes_ofPasses_cons : (ofPasses (pass :: ps)).passTimes =
    update pass.key (fun times => pass.time :: times.getD []) (ofPasses ps).passTimes := by
  rw [ofPasses_cons]

/-- Under each key that has any stand the times of its passes.

**Proof sketch.** Induction on the passes. -/
lemma lookup_passTimes : (ofPasses ps).passTimes.lookup key =
    if timesOf ps key = [] then none else some (timesOf ps key) := by
  induction ps with
  | nil => rfl
  | cons pass rest ih =>
    rw [passTimes_ofPasses_cons, lookup_update, timesOf_cons]
    by_cases hkey : key = pass.key
    · subst hkey
      rw [if_pos rfl, if_pos rfl, if_neg (List.cons_ne_nil _ _), ih]
      by_cases hnone : timesOf rest pass.key = []
      · rw [if_pos hnone, hnone]
        rfl
      · rw [if_neg hnone]
        rfl
    · rw [if_neg hkey, if_neg (Ne.symm hkey), ih]

/-- The times of a key are those of its passes. -/
lemma times_ofPasses : (ofPasses ps).times key = timesOf ps key := by
  rw [times, lookup_passTimes]
  split
  · rename_i hnone
    rw [hnone]
    rfl
  · rfl

/-- The averages are those of the times that are kept, key by key. -/
lemma averages_ofPasses : (ofPasses ps).averages =
    (ofPasses ps).passTimes.map fun entry => (entry.1, average entry.2) := by
  induction ps with
  | nil => rfl
  | cons pass rest ih =>
    rw [ofPasses_cons, ih, map_update]
    rw [lookup_update, if_pos rfl, Option.getD_some]

/-- Under each key that has any passes stands the average of their times. -/
lemma lookup_averages : (ofPasses ps).averages.lookup key =
    if timesOf ps key = [] then none else some (average (timesOf ps key)) := by
  rw [averages_ofPasses, lookup_map, lookup_passTimes]
  split <;> rfl

/-- A key has one entry. -/
lemma nodup_keys_ofPasses : ((ofPasses ps).passTimes.map Prod.fst).Nodup := by
  induction ps with
  | nil => exact List.nodup_nil
  | cons pass rest ih =>
    rw [passTimes_ofPasses_cons]
    exact nodup_keys_update ih

/-- The longest time is that of the longest pass. -/
lemma maxTime_ofPasses : (ofPasses ps).maxTime = longest ps := by
  induction ps with
  | nil => rfl
  | cons pass rest ih =>
    rw [ofPasses_cons, ih, Nat.max_comm]
    rfl

/-- All passes are counted. -/
lemma passes_ofPasses : (ofPasses ps).passes = ps.length := by
  induction ps with
  | nil => rfl
  | cons pass rest ih => rw [ofPasses_cons, ih, List.length_cons]

/-- The bytes of passes over whole documents are added up. -/
lemma fullBytes_ofPasses : (ofPasses ps).fullBytes = (ps.map (·.rescanned)).sum := by
  induction ps with
  | nil => rfl
  | cons pass rest ih => rw [ofPasses_cons, ih, List.map_cons, List.sum_cons, Nat.add_comm pass.rescanned]

/-- The times of passes over whole documents are added up. -/
lemma fullTime_ofPasses : (ofPasses ps).fullTime = (fullTimes ps).sum := by
  induction ps with
  | nil => rfl
  | cons pass rest ih =>
    rw [ofPasses_cons, ih, fullTimes, fullTimes]
    by_cases hlocal : pass.kind = .linesOnly
    · simp [hlocal]
    · simp [hlocal, Nat.add_comm]

/-- The sum that is counted along is the sum of the list. -/
lemma sum_eq (times : List Nat) : sum times = times.sum := by
  rw [sum, List.sum_eq_foldl]

/-- The passes of any keys are counted under these keys. -/
lemma sum_lengths_ofPasses (p : PassKey → Bool) (ps : List FinishedPass) :
    (((ofPasses ps).passTimes.filter fun entry => p entry.1).map fun entry => entry.2.length).sum =
      ps.countP fun pass => p pass.key := by
  induction ps with
  | nil => rfl
  | cons pass rest ih => rw [passTimes_ofPasses_cons, sum_lengths_update, ih, List.countP_cons]

/-- The passes of a kind are counted. -/
lemma countOf_ofPasses {kind : PassKind} :
    (ofPasses ps).countOf kind = ps.countP (·.kind == kind) := by
  rw [countOf, ← List.foldl_map, ← List.sum_eq_foldl]
  exact sum_lengths_ofPasses (fun key => key.kind == kind) ps

/-! ### What the counters can hold -/

/-- Whether the counters can hold some passes: the times of each key, the number of all passes, and the
bytes and times of those over whole documents. -/
def Holds (ps : List FinishedPass) : Prop :=
  (∀ key ∈ PassKey.all, (timesOf ps key).sum < Capacity.ofTime) ∧ ps.length < Capacity.ofCount ∧
    (ps.map (·.rescanned)).sum < Capacity.ofCount ∧ (fullTimes ps).sum < Capacity.ofTime

instance (ps : List FinishedPass) : Decidable (Holds ps) :=
  inferInstanceAs (Decidable (_ ∧ _ ∧ _ ∧ _))

/-- The times of a key are the same in another order. -/
lemma timesOf_perm (h : ps.Perm qs) : (timesOf ps key).Perm (timesOf qs key) :=
  (h.filter _).map _

/-- Whether the counters can hold some passes does not depend on the order. -/
lemma holds_perm (h : ps.Perm qs) : Holds ps ↔ Holds qs := by
  have hfull : (fullTimes ps).Perm (fullTimes qs) := (h.filter _).map _
  simp only [Holds, h.length_eq, (h.map _).sum_nat, hfull.sum_nat, (timesOf_perm h).sum_nat]

/-- With some passes the counters can hold fewer of them. -/
lemma Holds.of_sublist (h : Holds qs) (hsub : ps.Sublist qs) : Holds ps := by
  obtain ⟨htimes, hcount, hbytes, hfull⟩ := h
  refine ⟨fun key hkey => ?_, Nat.lt_of_le_of_lt hsub.length_le hcount,
    Nat.lt_of_le_of_lt (sum_map_le_of_sublist hsub) hbytes,
    Nat.lt_of_le_of_lt (sum_map_le_of_sublist (hsub.filter _)) hfull⟩
  exact Nat.lt_of_le_of_lt (sum_map_le_of_sublist (hsub.filter _)) (htimes key hkey)

/-- A pass concerns the times of its own key only. -/
lemma fitsAt_iff (h : Holds ps) :
    (ofPasses (pass :: ps)).fitsAt pass.key = true ↔ Holds (pass :: ps) := by
  simp only [fitsAt, Bool.and_eq_true, decide_eq_true_eq, times_ofPasses, sum_eq, passes_ofPasses,
    fullBytes_ofPasses, fullTime_ofPasses, and_assoc]
  refine and_congr_left fun _ => ⟨fun htimes key _ => ?_, fun hall => hall _ (PassKey.mem_all _)⟩
  by_cases hkey : pass.key = key
  · rwa [← hkey]
  · rw [timesOf_cons, if_neg hkey]
    exact h.1 key (PassKey.mem_all key)

/-- No more passes have a key than there are. -/
lemma length_timesOf_le : (timesOf ps key).length ≤ ps.length := by
  rw [timesOf, List.length_map]
  exact List.length_filter_le ..

/-- **One more pass.** It is refused just if the counters cannot hold it.

**Proof sketch.** There are few enough passes for the divisor. What is left of the checks is about
the times of the key and about the sums, and the passes before were held. -/
lemma record_ofPasses (h : Holds ps) (hcount : (pass :: ps).length < 2 ^ 32) :
    (ofPasses ps).record pass.kind pass.bytes pass.time =
      if Holds (pass :: ps) then .ok (ofPasses (pass :: ps)) else .error .aboveCapacity := by
  have hdivisor : (Capacity.divisor ((ofPasses (pass :: ps)).times pass.key).length != 0) = true := by
    have hle : (timesOf (pass :: ps) pass.key).length ≤ (pass :: ps).length := length_timesOf_le
    rw [times_ofPasses, Capacity.divisor_of_lt (Nat.lt_of_le_of_lt hle hcount), timesOf_cons, if_pos rfl]
    rfl
  show (demand ((ofPasses (pass :: ps)).fitsAt pass.key) .aboveCapacity >>= fun _ =>
    demand (Capacity.divisor ((ofPasses (pass :: ps)).times pass.key).length != 0) .dividesByZero >>=
      fun _ => pure (ofPasses (pass :: ps))) = _
  rw [hdivisor]
  by_cases hall : Holds (pass :: ps)
  · rw [(fitsAt_iff h).mpr hall, if_pos hall]
    rfl
  · rw [Bool.eq_false_iff.mpr fun hfits => hall ((fitsAt_iff h).mp hfits), if_neg hall]
    rfl

/-! ### Passes in any order -/

/-- Records several passes. -/
def recordAll (ps : List FinishedPass) : Checked Measurement :=
  ps.foldlM (fun m pass => m.record pass.kind pass.bytes pass.time) empty

/-- Recorded passes are refused just if the counters cannot hold all of them. -/
lemma recordAll_eq (hcount : ps.length < 2 ^ 32) : recordAll ps =
    if Holds ps then .ok (ofPasses ps.reverse) else .error .aboveCapacity := by
  have hall := FinishedPass.foldlM_from_none ofPasses Holds
    (fun m pass => m.record pass.kind pass.bytes pass.time)
    (fun hsub hholds => hholds.of_sublist hsub) record_ofPasses (by decide) hcount
  exact hall.trans (if_congr (holds_perm ps.reverse_perm) rfl rfl)

/-- If the counters can hold all passes, then recording them gives the measurements of these passes. -/
lemma recordAll_eq_ok_iff {m : Measurement} (hcount : ps.length < 2 ^ 32) :
    recordAll ps = .ok m ↔ Holds ps ∧ ofPasses ps.reverse = m := by
  rw [recordAll_eq hcount]
  by_cases hholds : Holds ps
  · simp [hholds]
  · simp [hholds]

/-- What is kept agrees: under each key stand the times of its passes and their average, rounded down. -/
lemma lookup_averages_of_lt (hcount : ps.length < 2 ^ 32) (key : PassKey) :
    (ofPasses ps).averages.lookup key = if timesOf ps key = [] then none
      else some ((timesOf ps key).sum / (timesOf ps key).length) := by
  have haverage : average (timesOf ps key) = (timesOf ps key).sum / (timesOf ps key).length := by
    rw [average, sum_eq, Capacity.share_of_lt (Nat.lt_of_le_of_lt length_timesOf_le hcount)]
  rw [lookup_averages, haverage]

/-- All that is read off measurements. -/
structure Findings where
  /-- The number of passes of each key. -/
  count : PassKey → Nat
  /-- The average of each key, if it has one. -/
  average : PassKey → Option Nat
  maxTime : Nat
  passes : Nat
  repairs : Nat
  /-- The number of edits, which the share of repairs is of. -/
  edits : Nat
  /-- Whether all requirements are met. -/
  meets : Bool
  issues : List String

/-- The findings of measurements. -/
def findings (m : Measurement) : Findings where
  count key := (m.times key).length
  average key := m.averages.lookup key
  maxTime := m.maxTime
  passes := m.passes
  repairs := m.countOf .repair
  edits := m.countOf .repair + m.countOf .linesOnly
  meets := m.issues.isEmpty
  issues := m.issues

/-- An average does not depend on the order. -/
lemma average_perm {times times' : List Nat} (h : times.Perm times') : average times = average times' := by
  rw [average, average, sum_eq, sum_eq, h.sum_nat, h.length_eq]

/-- The averages under the keys do not depend on the order. -/
lemma lookup_averages_perm (h : ps.Perm qs) (key : PassKey) :
    (ofPasses ps).averages.lookup key = (ofPasses qs).averages.lookup key := by
  have htimes : (timesOf ps key).Perm (timesOf qs key) := timesOf_perm h
  rw [lookup_averages, lookup_averages, average_perm htimes]
  simp only [← List.length_eq_zero_iff, htimes.length_eq]

/-- **Findings do not depend on the order.**

**Proof sketch.** All that is read off is made of averages, of counts and of sums. -/
lemma findings_perm (h : ps.Perm qs) : (ofPasses ps).findings = (ofPasses qs).findings := by
  have hcountOf (kind : PassKind) : (ofPasses ps).countOf kind = (ofPasses qs).countOf kind := by
    rw [countOf_ofPasses, countOf_ofPasses, h.countP_eq]
  have hratio : (ofPasses ps).repairRatio = (ofPasses qs).repairRatio := by
    simp only [repairRatio, hcountOf]
  have hslow : (ofPasses ps).slowIssue? = (ofPasses qs).slowIssue? := by
    funext key
    rw [slowIssue?, slowIssue?, lookup_averages_perm h]
  have hissues : (ofPasses ps).issues = (ofPasses qs).issues := by
    rw [issues, issues, hslow, hratio]
  simp only [findings, times_ofPasses, (timesOf_perm h).length_eq, lookup_averages_perm h,
    maxTime_ofPasses, longest_perm h, passes_ofPasses, h.length_eq, hcountOf, hissues]

/-- **Measurements do not depend on the order.** Take fewer than `2 ^ 32` passes and record them in two
orders. What is read off the measurements is the same: the number of passes and the average of each key,
the longest time, the number of all passes, the repairs among the edits, and so whether the requirements
are met and what is complained about. Both orders are refused if the counters cannot hold the passes, and
only then. What is kept agrees: under each key stand the times of its passes, the average is their sum
divided by their number and rounded down, passes of a kind are counted key by key, all passes are the sum
of what is counted by key, and the averages have the keys of the times.

**Proof sketch.** A pass is refused just if the counters cannot hold it together with the passes in front
of it. What is kept is said of the passes that were recorded, the latest first, and what is said does not
depend on their order. -/
theorem findings_recordAll (h : ps.Perm qs) (hcount : ps.length < 2 ^ 32) :
    (recordAll ps).map findings = (recordAll qs).map findings ∧
      ((∃ m, recordAll ps = .ok m) ↔ Holds ps) ∧
      ∀ m, recordAll ps = .ok m →
        (∀ key, (m.times key).Perm (timesOf ps key)) ∧
        (∀ key, m.averages.lookup key = if timesOf ps key = [] then none
          else some ((timesOf ps key).sum / (timesOf ps key).length)) ∧
        m.maxTime = longest ps ∧
        (∀ kind, m.countOf kind = ps.countP (·.kind == kind)) ∧
        m.passes = ps.length ∧
        m.passes = (m.passTimes.map fun entry => entry.2.length).sum ∧
        m.averages.map Prod.fst = m.passTimes.map Prod.fst ∧
        (m.passTimes.map Prod.fst).Nodup := by
  -- passes are recorded in front of those from before
  have hreverse : ps.reverse.Perm qs.reverse := ps.reverse_perm.trans (h.trans qs.reverse_perm.symm)
  refine ⟨?_, ?_, fun m hm => ?_⟩
  · rw [recordAll_eq hcount, recordAll_eq (h.length_eq ▸ hcount)]
    by_cases hholds : Holds ps
    · rw [if_pos hholds, if_pos ((holds_perm h).mp hholds)]
      exact congrArg Except.ok (findings_perm hreverse)
    · rw [if_neg hholds, if_neg fun hall => hholds ((holds_perm h).mpr hall)]
  · simp [recordAll_eq_ok_iff hcount]
  · obtain ⟨-, rfl⟩ := (recordAll_eq_ok_iff hcount).mp hm
    have hlength : ps.reverse.length = ps.length := ps.length_reverse
    refine ⟨fun key => ?_, fun key => ?_, ?_, fun kind => ?_, ?_, ?_, ?_, nodup_keys_ofPasses⟩
    · rw [times_ofPasses]
      exact timesOf_perm ps.reverse_perm
    · rw [lookup_averages_perm ps.reverse_perm, lookup_averages_of_lt hcount]
    · rw [maxTime_ofPasses, longest_perm ps.reverse_perm]
    · rw [countOf_ofPasses, ps.reverse_perm.countP_eq]
    · rw [passes_ofPasses, hlength]
    · have hall := sum_lengths_ofPasses (fun _ => true) ps.reverse
      rw [passes_ofPasses]
      simpa using hall.symm
    · rw [averages_ofPasses, List.map_map]
      rfl

/-- Two passes of one key, whose average is not a whole number, with passes of other keys between them.
In the other order the entries stand in another order, and so do the times of that key. -/
theorem findings_recordAll_rounded :
    ∃ (ps : List FinishedPass) (m m' : Measurement),
      ps = [⟨.full, 300000000, 2000⟩, ⟨.linesOnly, 5, 2000⟩, ⟨.repair, 7, 20480⟩,
        ⟨.full, 100000001, 2000⟩, ⟨.linesOnly, 8, 2000000⟩] ∧
      ps.Perm ps.reverse ∧ recordAll ps = .ok m ∧ recordAll ps.reverse = .ok m' ∧
      m.findings = m'.findings ∧ m.passTimes ≠ m'.passTimes ∧
      (m.times ⟨.full, .small⟩).Perm [300000000, 100000001] ∧
      m.averages.lookup ⟨.full, .small⟩ = some 200000000 ∧
      m.averages.lookup ⟨.repair, .small⟩ = none ∧
      m.maxTime = 300000000 ∧ m.passes = 5 := by
  let ps : List FinishedPass := [⟨.full, 300000000, 2000⟩, ⟨.linesOnly, 5, 2000⟩, ⟨.repair, 7, 20480⟩,
    ⟨.full, 100000001, 2000⟩, ⟨.linesOnly, 8, 2000000⟩]
  have hperm : ps.Perm ps.reverse := ps.reverse_perm.symm
  have hm : recordAll ps = .ok (ofPasses ps.reverse) :=
    (recordAll_eq_ok_iff (by decide)).mpr ⟨by decide, rfl⟩
  have hm' : recordAll ps.reverse = .ok (ofPasses ps.reverse.reverse) :=
    (recordAll_eq_ok_iff (by decide)).mpr ⟨by decide, rfl⟩
  obtain ⟨hsame, -, hkept⟩ := findings_recordAll hperm (by decide)
  obtain ⟨htimes, haverages, hmax, -, hpasses, -⟩ := hkept _ hm
  rw [hm, hm'] at hsame
  exact ⟨ps, _, _, rfl, hperm, hm, hm', Except.ok.inj hsame, by decide, htimes _,
    (haverages _).trans (by decide), (haverages _).trans (by decide), hmax, hpasses⟩

end Measurement

end LexPaint

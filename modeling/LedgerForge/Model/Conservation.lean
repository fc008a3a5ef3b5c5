import LedgerForge.Model.Plans

/-! # Splits follow their plans

The passes over the legs succeed exactly if the plan can be kept, and come to its split. Neither the order of the legs nor
the order in which maps are visited matters to the plan.
-/

namespace LedgerForge.Distributions

open Entries Metadata Decimal DistributionState Plan Function
open List hiding keys

variable {dists dists' : List Distribution} {s t : DistributionState} {precision n : ℤ} {p : Plan}

def isFixed (d : Distribution) : Bool := ¬ (isLeftDistribution d ∨ isPercentageDistribution d)

def isShare (d : Distribution) : Bool := ¬ isLeftDistribution d ∧ isPercentageDistribution d

def identifiers (dists : List Distribution) : List String := dists.map Distribution.identifier

def values (amounts : List (String × Decimal)) : List (String × ℚ) := amounts.map fun e => (e.1,e.2.value)

theorem parseFixedAmount_nonneg {dist : Distribution} {precisionDec amount : Decimal} (hprecision : 0 ≤ precisionDec.coef)
    (h : parseFixedAmount dist precisionDec = .ok amount) : 0 ≤ amount.coef := by
  unfold parseFixedAmount at h
  split at h
  · split at h
    · cases h
    split at h
    · cases h
    split at h
    · cases h
    · cases h
      exact not_lt.mp ‹_›
  · split at h
    · split at h
      · cases h
      rename_i value _
      split at h
      · cases h
      rename_i hsign
      cases h
      exact mul_nonneg (Int.sign_nonneg_iff.mp (not_lt.mp hsign)) hprecision
    · cases h

theorem parsePercentage_nonneg {dist : Distribution} {percentage : Decimal} (h : parsePercentage dist = .ok percentage) :
    0 ≤ percentage.coef := by
  unfold parsePercentage at h
  split at h
  · cases h
  split at h
  · cases h
  rename_i hsign
  cases h
  exact Int.sign_nonneg_iff.mp (not_lt.mp hsign)

def fixedEntries (precisionDec : Decimal) (dists : List Distribution) : List (String × Decimal) :=
  (dists.filter isFixed).map fun d => (d.identifier,(parseFixedAmount d precisionDec).toOption.getD (.ofInt 0))

def percentEntries (dists : List Distribution) : List (String × Decimal) :=
  (dists.filter isShare).map fun d => (d.identifier,(parsePercentage d).toOption.getD (.ofInt 0))

def Readable (precisionDec : Decimal) (dists : List Distribution) : Prop :=
  ∀ d ∈ dists, (isFixed d = true → ∃ a, parseFixedAmount d precisionDec = .ok a) ∧
    (isShare d = true → ∃ a, parsePercentage d = .ok a)

theorem fixedEntries_nonneg {precisionDec : Decimal} (hprecision : 0 ≤ precisionDec.coef) (dists : List Distribution) :
    ∀ e ∈ values (fixedEntries precisionDec dists), 0 ≤ e.2 := by
  refine forall_mem_map.mpr (forall_mem_map.mpr fun d _ => value_nonneg_iff.mpr ?_)
  cases h : parseFixedAmount d precisionDec with
  | error e => exact le_rfl
  | ok a => exact parseFixedAmount_nonneg hprecision h

theorem percentEntries_nonneg (dists : List Distribution) : ∀ e ∈ values (percentEntries dists), 0 ≤ e.2 := by
  refine forall_mem_map.mpr (forall_mem_map.mpr fun d _ => value_nonneg_iff.mpr ?_)
  cases h : parsePercentage d with
  | error e => exact le_rfl
  | ok a => exact parsePercentage_nonneg h

theorem processFixedDistributions_ok_iff (hprecision : 0 ≤ s.precisionDec.coef) (hleft : 0 ≤ s.amountLeftDec.value) :
    processFixedDistributions dists s = .ok t ↔
      (∀ d ∈ dists, isFixed d = true → ∃ a, parseFixedAmount d s.precisionDec = .ok a) ∧
      total (values (fixedEntries s.precisionDec dists)) ≤ s.amountLeftDec.value ∧
      (fixedEntries s.precisionDec dists).foldl (fun s e => s.addFixed e.1 e.2) s = t := by
  induction dists generalizing s with
  | nil => simp [processFixedDistributions,fixedEntries,values,total,hleft]
  | cons dist dists ih =>
    rw [processFixedDistributions,forall_mem_cons]
    split
    · rename_i hskip
      have hnot : isFixed dist = false := decide_eq_false (not_not.mpr hskip)
      have hentries : fixedEntries s.precisionDec (dist :: dists) = fixedEntries s.precisionDec dists := by
        simp [fixedEntries,hnot]
      rw [ih hprecision hleft,hentries,hnot]
      simp
    · rename_i hfixed
      have hfixed : isFixed dist = true := decide_eq_true hfixed
      cases hparse : parseFixedAmount dist s.precisionDec with
      | error e => simp [hfixed]
      | ok amount =>
        have hentries : fixedEntries s.precisionDec (dist :: dists) =
            (dist.identifier,amount) :: fixedEntries s.precisionDec dists := by
          simp [fixedEntries,filter_cons_of_pos hfixed,hparse,Except.toOption]
        have hrest : 0 ≤ total _ := sum_nonneg (forall_mem_map.mpr (fixedEntries_nonneg hprecision dists))
        have htotal : total (values (fixedEntries s.precisionDec (dist :: dists))) =
            amount.value+total (values (fixedEntries s.precisionDec dists)) := by
          rw [hentries]
          simp [total,values]
        rw [htotal,hentries]
        dsimp only
        split
        · rename_i hgt
          rw [cmp_gt_iff] at hgt
          exact iff_of_false (by simp) fun h => by linarith [h.2.1]
        rename_i hle
        have hle := not_lt.mp (mt cmp_gt_iff.mpr hle)
        have hnext : (s.addFixed dist.identifier amount).amountLeftDec.value = s.amountLeftDec.value-amount.value := by
          simp [addFixed]
        have hsame : (s.addFixed dist.identifier amount).precisionDec = s.precisionDec := rfl
        rw [ih (s := s.addFixed dist.identifier amount) hprecision (by rw [hnext]; linarith),hnext,le_sub_iff_add_le',hsame]
        simp

theorem foldl_addFixed (entries : List (String × Decimal)) (hn : (keys s.fixedAmounts ++ keys entries).Nodup) :
    ∃ fixedTotalDec amountLeftDec, entries.foldl (fun s e => s.addFixed e.1 e.2) s =
        { s with fixedAmounts := s.fixedAmounts ++ entries, fixedTotalDec := fixedTotalDec, amountLeftDec := amountLeftDec } ∧
      fixedTotalDec.value = s.fixedTotalDec.value+total (values entries) ∧
      amountLeftDec.value = s.amountLeftDec.value-total (values entries) := by
  induction entries generalizing s with
  | nil => exact ⟨_,_,by rw [append_nil]; rfl,by simp [values,total],by simp [values,total]⟩
  | cons e entries ih =>
    have hnew : e.1 ∉ keys s.fixedAmounts := fun hmem => (nodup_append.mp hn).2.2 _ hmem _ mem_cons_self rfl
    have hput : (s.addFixed e.1 e.2).fixedAmounts = s.fixedAmounts ++ [e] := put_of_notMem hnew
    obtain ⟨ft,al,heq,hft,hal⟩ := ih (by rw [hput]; simpa [keys] using hn)
    refine ⟨ft,al,?_,?_,?_⟩
    · rw [foldl_cons,heq,hput]
      simp [addFixed]
    · rw [hft]
      simp [addFixed,values,total,add_assoc]
    · rw [hal]
      simp [addFixed,values,total,sub_sub]

theorem processPercentageDistributions_ok_iff : processPercentageDistributions dists s = .ok t ↔
    (∀ d ∈ dists, isShare d = true → ∃ a, parsePercentage d = .ok a) ∧
    (percentEntries dists).foldl (fun s e => s.addPercentage e.1 e.2) s = t := by
  induction dists generalizing s with
  | nil => simp [processPercentageDistributions,percentEntries]
  | cons dist dists ih =>
    rw [processPercentageDistributions,forall_mem_cons]
    split
    · rename_i hskip
      have hnot : isShare dist = false := decide_eq_false fun h => hskip.elim h.1 (· h.2)
      have hentries : percentEntries (dist :: dists) = percentEntries dists := by simp [percentEntries,hnot]
      rw [ih,hentries,hnot]
      simp
    · rename_i hshare
      have hshare : isShare dist = true := decide_eq_true ((not_or.mp hshare).imp_right not_not.mp)
      cases hparse : parsePercentage dist with
      | error e => simp [hshare]
      | ok percentage =>
        have hentries : percentEntries (dist :: dists) = (dist.identifier,percentage) :: percentEntries dists := by
          simp [percentEntries,filter_cons_of_pos hshare,hparse,Except.toOption]
        rw [hentries]
        rw [ih]
        simp

theorem value_share (s : DistributionState) (percentage : Decimal) :
    (s.share percentage).value = s.totalAmountDec.value*percentage.value/100 := by
  simp [share]
  ring

theorem foldl_addPercentage (entries : List (String × Decimal)) (hn : (keys s.percentAmounts ++ keys entries).Nodup) :
    ∃ amounts totalPercentage, entries.foldl (fun s e => s.addPercentage e.1 e.2) s =
        { s with percentAmounts := s.percentAmounts ++ amounts, totalPercentage := totalPercentage } ∧
      totalPercentage.value = s.totalPercentage.value+total (values entries) ∧
      values amounts = (values entries).map fun e => (e.1,
        let raw := s.totalAmountDec.value*e.2/100
        if 0 < raw ∧ raw < 1 then 0 else raw) := by
  induction entries generalizing s with
  | nil => exact ⟨[],_,by rw [append_nil]; rfl,by simp [values,total],rfl⟩
  | cons e entries ih =>
    have hnew : e.1 ∉ keys s.percentAmounts := fun hmem => (nodup_append.mp hn).2.2 _ hmem _ mem_cons_self rfl
    obtain ⟨amount,hamount⟩ : ∃ amount, amount = if 0 < (s.share e.2).sign ∧ (s.share e.2).cmp (.ofInt 1) = .lt then
      ofInt 0 else s.share e.2 := ⟨_,rfl⟩
    have hput : (s.addPercentage e.1 e.2).percentAmounts = s.percentAmounts ++ [(e.1,amount)] := by
      rw [hamount]
      exact put_of_notMem hnew
    obtain ⟨amounts,tp,heq,htp,hvalues⟩ := ih (by rw [hput]; simpa [keys] using hn)
    refine ⟨(e.1,amount) :: amounts,tp,?_,?_,?_⟩
    · rw [foldl_cons,heq,hput]
      simp [addPercentage]
    · rw [htp]
      simp [addPercentage,values,total,add_assoc]
    · have hvalue : amount.value = let raw := s.totalAmountDec.value*e.2.value/100
          if 0 < raw ∧ raw < 1 then 0 else raw := by
        rw [hamount]
        simp only [sign_pos_iff,cmp_lt_iff,value_ofInt,Int.cast_one,← value_share]
        split <;> simp
      rw [values,map_cons,← values,hvalues,hvalue]
      rfl

/-- The legs ask for what the plan says, in any order. -/
structure Planned (precision : ℤ) (dists : List Distribution) (p : Plan) : Prop where
  fixed : (values (fixedEntries (.ofInt precision) dists)).Perm p.fixed
  percentages : (values (percentEntries dists)).Perm p.percentages
  left : (identifiers (dists.filter isLeftDistribution)).Perm p.left

theorem Planned.perm (h : Planned precision dists p) (hperm : dists'.Perm dists) : Planned precision dists' p where
  fixed := (((hperm.filter _).map _).map _).trans h.fixed
  percentages := (((hperm.filter _).map _).map _).trans h.percentages
  left := ((hperm.filter _).map _).trans h.left

structure Follows (n : ℤ) (p : Plan) (s : DistributionState) : Prop where
  totalAmount : s.totalAmountDec = .ofInt n
  fixedAmounts : (values s.fixedAmounts).Perm p.fixed
  percentAmounts : (values s.percentAmounts).Perm (p.rounded n)
  fixedTotal : s.fixedTotalDec.value = total p.fixed
  totalPercentage : s.totalPercentage.value = total p.percentages
  amountLeft : s.amountLeftDec.value = n-total p.fixed
  result : s.result = []

theorem total_perm {l l' : List (String × ℚ)} (h : l.Perm l') : total l = total l' := (h.map _).sum_eq

theorem total_shares : total (p.shares n) = n*total p.percentages/100 := by
  unfold total shares
  induction p.percentages with
  | nil => simp
  | cons e l ih =>
    rw [map_cons,map_cons,sum_cons,ih,map_cons,sum_cons]
    ring

theorem keys_values (amounts : List (String × Decimal)) : keys (values amounts) = keys amounts := by
  simp [keys,values,comp_def]

theorem keys_fixedEntries (precisionDec : Decimal) :
    keys (fixedEntries precisionDec dists) = identifiers (dists.filter isFixed) := by
  simp [keys,fixedEntries,identifiers,comp_def]

theorem keys_percentEntries : keys (percentEntries dists) = identifiers (dists.filter isShare) := by
  simp [keys,percentEntries,identifiers,comp_def]

def afterFixed (n precision : ℤ) (dists : List Distribution) : DistributionState :=
  (fixedEntries (.ofInt precision) dists).foldl (fun s e => s.addFixed e.1 e.2) (initialState n precision)

def afterShares (n precision : ℤ) (dists : List Distribution) : DistributionState :=
  (percentEntries dists).foldl (fun s e => s.addPercentage e.1 e.2) (afterFixed n precision dists)

theorem follows_passes (hplan : Planned precision dists p) (hnodup : (identifiers dists).Nodup) :
    Follows n p (afterShares n precision dists) := by
  have hkinds : ∀ kind, (identifiers (dists.filter kind)).Nodup := fun _ => hnodup.sublist (filter_sublist.map _)
  obtain ⟨ft,al,hfixed,hft,hal⟩ := foldl_addFixed (s := initialState n precision) (fixedEntries (.ofInt precision) dists)
    (by rw [keys_fixedEntries]; exact hkinds _)
  rw [← afterFixed] at hfixed
  obtain ⟨amounts,tp,hshares,htp,hvalues⟩ := foldl_addPercentage (s := afterFixed n precision dists) (percentEntries dists)
    (by rw [hfixed,keys_percentEntries]; exact hkinds _)
  rw [afterShares,hshares]
  refine ⟨by rw [hfixed]; rfl,by rw [hfixed]; exact hplan.fixed,?_,?_,?_,?_,by rw [hfixed]; rfl⟩
  · rw [hfixed] at hvalues
    rw [hfixed,show (initialState n precision).percentAmounts ++ amounts = amounts from rfl,hvalues]
    refine (hplan.percentages.map _).trans (.of_eq ?_)
    simp [rounded,shares,initialState]
  · rw [hfixed,hft,total_perm hplan.fixed]
    simp [initialState]
  · rw [htp,hfixed,total_perm hplan.percentages]
    simp [initialState]
  · rw [hfixed,hal,total_perm hplan.fixed]
    simp [initialState]

theorem validateDistributions_ok_iff (h : Follows n p s) : validateDistributions s = .ok () ↔
    total p.percentages ≤ 100 ∧ total p.fixed+total (p.shares n) ≤ n := by
  have hshare : (s.share s.totalPercentage).value = total (p.shares n) := by
    rw [value_share,h.totalAmount,h.totalPercentage,total_shares,value_ofInt]
  simp only [validateDistributions,cmp_gt_iff,value_add,hshare,h.totalPercentage,h.fixedTotal,h.totalAmount,
    value_ofInt]
  split
  · rename_i hgt
    refine iff_of_false nofun fun hle => ?_
    rcases hgt with hgt | hgt
    · exact absurd hle.1 (not_le.mpr (by exact_mod_cast hgt))
    · exact absurd hle.2 (not_le.mpr hgt)
  · rename_i hle
    rw [not_or,not_lt,not_lt] at hle
    exact iff_of_true rfl (by exact_mod_cast hle)

/-- The order in which the loops over the maps visit their entries. -/
structure Visits where
  decimals : List (String × Decimal) → List (String × Decimal)
  decimals_perm : ∀ l, (decimals l).Perm l
  amounts : List (String × ℤ) → List (String × ℤ)
  amounts_perm : ∀ l, (amounts l).Perm l

def DistributionState.visited (v : Visits) (s : DistributionState) : DistributionState :=
  { s with fixedAmounts := v.decimals s.fixedAmounts, percentAmounts := v.decimals s.percentAmounts,
           result := v.amounts s.result }

variable {v : Visits}

theorem Follows.visited (h : Follows n p s) : Follows n p (s.visited v) where
  totalAmount := h.totalAmount
  fixedAmounts := ((v.decimals_perm _).map _).trans h.fixedAmounts
  percentAmounts := ((v.decimals_perm _).map _).trans h.percentAmounts
  fixedTotal := h.fixedTotal
  totalPercentage := h.totalPercentage
  amountLeft := h.amountLeft
  result := by
    have hperm := v.amounts_perm s.result
    rw [h.result] at hperm
    exact (congrArg v.amounts h.result).trans hperm.eq_nil

theorem value_foldl_add (amounts : List (String × Decimal)) (d : Decimal) :
    (amounts.foldl (fun sum e => sum.add e.2) d).value = d.value+total (values amounts) := by
  induction amounts generalizing d with
  | nil => simp [total,values]
  | cons e amounts ih =>
    rw [foldl_cons,ih]
    simp [total,values,add_assoc]

theorem value_foldl_sub (amounts : List (String × Decimal)) (d : Decimal) :
    (amounts.foldl (fun left e => left.sub e.2) d).value = d.value-total (values amounts) := by
  induction amounts generalizing d with
  | nil => simp [total,values]
  | cons e amounts ih =>
    rw [foldl_cons,ih]
    simp [total,values,sub_sub]

theorem Follows.adjust (h : Follows n p s) (hsound : p.Sound n) (hnames : ∀ id ∈ p.legs, id ≠ "") :
    ∃ amounts, adjustPercentageAmounts s = { s with percentAmounts := amounts } ∧ (values amounts).Perm (p.adjusted n) := by
  have hkeys : (keys (values s.percentAmounts)).Perm (keys p.percentages) := keys_rounded ▸ h.percentAmounts.map _
  have hnonempty : ∀ e ∈ values s.percentAmounts, e.1 ≠ "" := fun e he =>
    hnames e.1 (mem_append_left _ (mem_append_right _ (hkeys.mem_iff.mp (mem_map_of_mem he))))
  obtain ⟨diff,hdiff⟩ : ∃ diff, diff = (s.share s.totalPercentage).sub (sumDecimals s.percentAmounts) := ⟨_,rfl⟩
  have hvalue : diff.value = total (p.shares n)-total (p.rounded n) := by
    rw [hdiff,value_sub,sumDecimals,value_foldl_add,value_share,h.totalAmount,h.totalPercentage,total_shares,
      total_perm h.percentAmounts]
    simp
  obtain ⟨found,hfound⟩ : ∃ found, found = findLargestDecimal s.percentAmounts := ⟨_,rfl⟩
  have hlargest : largest compare 0 (p.rounded n) = (found.1,found.2.value) := by
    have hmap := largest_map cmp_eq (.ofInt 0) s.percentAmounts
    rw [value_ofInt] at hmap
    rw [← largest_perm 0 h.percentAmounts (hkeys.nodup_iff.mpr hsound.percentages_distinct) hnonempty,hfound]
    exact hmap
  have hgt : diff.abs.cmp (.ofInt 0) = .gt ↔ diff.value ≠ 0 := by
    rw [cmp_gt_iff,value_abs,value_ofInt,Int.cast_zero,abs_pos]
  unfold adjustPercentageAmounts adjusted
  dsimp only
  rw [hlargest,← hdiff,← hfound,← hvalue]
  by_cases hcond : diff.value ≠ 0 ∧ 0 < found.2.value
  · have hne : s.percentAmounts ≠ [] := by
      intro hempty
      rw [hfound,hempty] at hcond
      exact absurd hcond.2 (by simp [findLargestDecimal,largest])
    have hmem : found ∈ s.percentAmounts := hfound ▸ largest_mem _ _ hne
    have hname : found.1 ≠ "" := hnonempty _ (mem_map_of_mem hmem)
    refine ⟨put s.percentAmounts found.1 (found.2.add diff),?_,?_⟩
    · rw [if_neg hne,if_neg (not_not.mpr (hgt.mpr hcond.1)),if_pos ⟨hname,sign_pos_iff.mpr hcond.2⟩]
    · rw [if_pos hcond,values,map_put,value_add]
      exact put_perm h.percentAmounts _ _
  · refine ⟨s.percentAmounts,?_,by rw [if_neg hcond]; exact h.percentAmounts⟩
    split_ifs with hempty hzero hput
    · rfl
    · rfl
    · exact absurd ⟨hgt.mp (not_not.mp hzero),sign_pos_iff.mp hput.2⟩ hcond
    · rfl

theorem combineDistributions_spec (hresult : s.result = []) (hn : (keys s.fixedAmounts ++ keys s.percentAmounts).Nodup) :
    (combineDistributions s).result = (s.fixedAmounts ++ s.percentAmounts).map (fun e => (e.1,e.2.bigInt)) ∧
    (combineDistributions s).amountLeftDec.value = s.amountLeftDec.value-total (values s.percentAmounts) := by
  refine ⟨?_,value_foldl_sub _ _⟩
  have hfixed : s.fixedAmounts.foldl (fun result e => put result e.1 e.2.bigInt) s.result =
      s.fixedAmounts.map fun e => (e.1,e.2.bigInt) := by
    rw [hresult,foldl_put (by simpa [keys] using (nodup_append.mp hn).1),nil_append]
  rw [combineDistributions,hfixed]
  rw [foldl_put (by simpa [keys,comp_def] using hn),map_append]

/-- The cuts before what is left, and what is left. -/
theorem Follows.combine (h : Follows n p s) (hsound : p.Sound n) {amounts : List (String × Decimal)}
    (hamounts : (values amounts).Perm (p.adjusted n)) :
    (combineDistributions { s with percentAmounts := amounts }).result.Perm ((p.exact n).map fun e => (e.1,⌊e.2⌋)) ∧
    (combineDistributions { s with percentAmounts := amounts }).amountLeftDec.value = n-total (p.exact n) := by
  have hexact : (values (s.fixedAmounts ++ amounts)).Perm (p.exact n) := by
    rw [values,map_append]
    exact h.fixedAmounts.append hamounts
  have hkeys : (keys (p.exact n)).Sublist (keys (p.cut n)) := by
    rw [keys_cut,exact,keys,map_append]
    exact sublist_append_left ..
  obtain ⟨hresult,hleft⟩ := combineDistributions_spec (s := { s with percentAmounts := amounts }) h.result (by
    have hnodup := (hexact.map Prod.fst).nodup_iff.mpr ((hsound.perm_keys_cut.nodup_iff.mpr hsound.distinct).sublist hkeys)
    rw [← keys,keys_values] at hnodup
    simpa [keys] using hnodup)
  refine ⟨?_,?_⟩
  · rw [hresult]
    refine List.Perm.trans (.of_eq ?_) (hexact.map _)
    rw [values,map_map]
    refine map_congr_left fun e he => ?_
    have hnonneg := hsound.exact_nonneg _ (hexact.mem_iff.mp (mem_map_of_mem he))
    exact congrArg (Prod.mk e.1) (bigInt_eq_floor (value_nonneg_iff.mp hnonneg))
  · rw [hleft,h.amountLeft,total_perm hamounts,exact]
    simp only [total,map_append,sum_append]
    ring

/-- With the leg that takes what is left the cuts are complete. -/
theorem processLeftDistribution_spec (hplan : Planned precision dists p) (hsound : p.Sound n)
    (hresult : s.result.Perm ((p.exact n).map fun e => (e.1,⌊e.2⌋))) (hleft : s.amountLeftDec.value = n-total (p.exact n)) :
    ∃ result, processLeftDistribution dists s = .ok { s with result := result } ∧ result.Perm (p.cut n) := by
  unfold processLeftDistribution cut
  cases hfind : dists.find? isLeftDistribution with
  | none =>
    have hnone := hplan.left
    rw [filter_eq_nil_iff.mpr (List.find?_eq_none.mp hfind)] at hnone
    rw [hnone.symm.eq_nil,map_nil,append_nil]
    exact ⟨s.result,rfl,hresult⟩
  | some dist =>
    have hone : p.left = [dist.identifier] := by
      have hmem : dist.identifier ∈ p.left := hplan.left.mem_iff.mp (mem_map_of_mem
        (mem_filter.mpr ⟨List.mem_of_find?_eq_some hfind,List.find?_some hfind⟩))
      obtain ⟨d,hd⟩ := length_eq_one_iff.mp (le_antisymm hsound.one_left (length_pos_of_mem hmem))
      rw [hd] at hmem ⊢
      rw [mem_singleton.mp hmem]
    have hnew : dist.identifier ∉ keys s.result := by
      have hn := hsound.perm_keys_cut.nodup_iff.mpr hsound.distinct
      rw [keys_cut,hone] at hn
      intro hmem
      refine (nodup_append.mp hn).2.2 dist.identifier ?_ _ (mem_singleton_self _) rfl
      have := (hresult.map Prod.fst).mem_iff.mp hmem
      simpa [exact,keys] using this
    have hcoef : 0 ≤ s.amountLeftDec.coef := by
      refine value_nonneg_iff.mp ?_
      rw [hleft]
      exact sub_nonneg.mpr (hsound.total_exact_le.trans hsound.within)
    refine ⟨put s.result dist.identifier s.amountLeftDec.bigInt,if_neg hnew,?_⟩
    rw [put_of_notMem hnew,hone,bigInt_eq_floor hcoef,hleft]
    exact hresult.append_right _

theorem foldl_ofInt (result : List (String × ℤ)) (n : ℤ) :
    result.foldl (fun sum e => sum.add (.ofInt e.2)) (ofInt n) = .ofInt (n+(result.map Prod.snd).sum) := by
  induction result generalizing n with
  | nil => simp
  | cons e result ih =>
    rw [foldl_cons,add_ofInt,ih,map_cons,sum_cons,add_assoc]


theorem balanceDistributions_spec (hamount : s.totalAmountDec = .ofInt n) (hsound : p.Sound n)
    (hnames : ∀ id ∈ p.legs, id ≠ "") (hlegs : p.legs ≠ []) (hresult : s.result.Perm (p.cut n)) :
    (balanceDistributions s).Perm (p.split n) := by
  have hkeys := (hresult.map Prod.fst).trans hsound.perm_keys_cut
  have hnonempty : ∀ e ∈ s.result, e.1 ≠ "" := fun e he => hnames e.1 (hkeys.mem_iff.mp (mem_map_of_mem he))
  have hsum := foldl_ofInt s.result 0
  have hlargest := largest_perm 0 hresult (hkeys.nodup_iff.mpr hsound.distinct) hnonempty
  have hne : s.result ≠ [] := by
    intro hempty
    rw [hempty] at hkeys
    exact hlegs hkeys.symm.eq_nil
  have hname : (largest compare 0 s.result).1 ≠ "" := hnonempty _ (largest_mem compare 0 hne)
  rw [zero_add,(hresult.map Prod.snd).sum_eq] at hsum
  unfold balanceDistributions split
  dsimp only
  rw [hsum,hamount,if_pos hname,Decimal.sub_ofInt,Decimal.bigInt_ofInt,hlargest]
  have hrest : Decimal.cmp (.ofInt ((p.cut n).map Prod.snd).sum) (.ofInt n) = .eq ↔ n-((p.cut n).map Prod.snd).sum = 0 := by
    rw [Decimal.cmp_eq,compare_eq_iff_eq,Decimal.value_ofInt,Decimal.value_ofInt,Int.cast_inj]
    omega
  by_cases hzero : n-((p.cut n).map Prod.snd).sum = 0
  · rw [if_pos (hrest.mpr hzero),if_pos hzero]
    exact hresult
  · rw [if_neg (mt hrest.mp hzero),if_neg hzero]
    exact put_perm hresult _ _

/-- The calculation with maps that are visited in any order. -/
def calculateVisiting (v : Visits) (totalPreciseAmount : Option ℤ) (dists : List Distribution) (precision : ℤ) :
    Except String (List (String × ℤ)) :=
  match totalPreciseAmount with
  | none => .error "total amount must be non-negative"
  | some total =>
    if total < 0 then .error "total amount must be non-negative"
    else if precision ≤ 0 then .error "precision must be positive"
    else if dists = [] then .error "distributions are required"
    else do
      validateLegs dists []
      if 1 < leftCount dists then throw "multiple identifiers with 'left' distribution"
      let s ← processFixedDistributions dists (initialState total precision)
      let s ← processPercentageDistributions dists s
      validateDistributions s
      if total = 0 then return handleZeroAmount dists
      let s := combineDistributions ((adjustPercentageAmounts (s.visited v)).visited v)
      if s.fixedTotalDec.coef = 0 ∧ s.totalPercentage.coef = 0 ∧ leftCount dists = 0 then
        throw "distributions must allocate a positive amount"
      let s ← processLeftDistribution dists s
      return balanceDistributions (s.visited v)

/-- Maps that are visited as they were filled. -/
def inOrder : Visits := ⟨fun l => l,List.Perm.refl,fun l => l,List.Perm.refl⟩

theorem validateLegs_ok_iff {seen : List String} : validateLegs dists seen = .ok () ↔ (identifiers dists).Nodup ∧
    ∀ d ∈ dists, d.identifier ≠ "" ∧ d.identifier ∉ seen ∧ ¬ (d.distribution ≠ "" ∧ d.preciseDistribution ≠ "") := by
  induction dists generalizing seen with
  | nil => simp [validateLegs,identifiers]
  | cons dist dists ih =>
    rw [validateLegs,forall_mem_cons]
    split
    · rename_i hbad
      exact iff_of_false nofun fun h => hbad.elim h.2.1.1 h.2.1.2.1
    rename_i hnew
    rw [not_or] at hnew
    split
    · rename_i hboth
      exact iff_of_false nofun fun h => h.2.1.2.2 hboth
    rename_i hboth
    rw [ih,show identifiers (dist :: dists) = dist.identifier :: identifiers dists from rfl,nodup_cons]
    constructor
    · rintro ⟨hn,hall⟩
      refine ⟨⟨fun hmem => ?_,hn⟩,⟨hnew.1,hnew.2,hboth⟩,fun d hd => ?_⟩
      · obtain ⟨d,hd,heq⟩ := mem_map.mp hmem
        exact (hall d hd).2.1 (heq ▸ mem_cons_self)
      · exact ⟨(hall d hd).1,fun hseen => (hall d hd).2.1 (mem_cons_of_mem _ hseen),(hall d hd).2.2⟩
    · rintro ⟨⟨hnot,hn⟩,-,hall⟩
      refine ⟨hn,fun d hd => ⟨(hall d hd).1,fun hseen => ?_,(hall d hd).2.2⟩⟩
      rcases mem_cons.mp hseen with heq | hseen
      · exact hnot (heq ▸ mem_map_of_mem hd)
      · exact (hall d hd).2.1 hseen

theorem perm_kinds (dists : List Distribution) :
    (dists.filter isFixed ++ dists.filter isShare ++ dists.filter isLeftDistribution).Perm dists := by
  induction dists with
  | nil => exact .refl _
  | cons dist dists ih =>
    have hmove : ∀ l m : List Distribution, (l ++ dist :: m).Perm (dist :: (l ++ m)) := fun l m => perm_middle
    cases hleft : isLeftDistribution dist with
    | true =>
      have hfixed : isFixed dist = false := by simp [isFixed,hleft]
      have hshare : isShare dist = false := by simp [isShare,hleft]
      simp only [filter_cons,hleft,hfixed,hshare,if_true,Bool.false_eq_true,if_false]
      exact (hmove _ _).trans (ih.cons dist)
    | false =>
      cases hpercent : isPercentageDistribution dist with
      | true =>
        have hfixed : isFixed dist = false := by simp [isFixed,hpercent]
        have hshare : isShare dist = true := by simp [isShare,hleft,hpercent]
        simp only [filter_cons,hleft,hfixed,hshare,if_true,Bool.false_eq_true,if_false,append_assoc,cons_append]
        exact (hmove _ _).trans ((append_assoc .. ▸ ih).cons dist)
      | false =>
        have hfixed : isFixed dist = true := by simp [isFixed,hleft,hpercent]
        have hshare : isShare dist = false := by simp [isShare,hpercent]
        simp only [filter_cons,hleft,hfixed,hshare,if_true,Bool.false_eq_true,if_false,cons_append]
        exact ih.cons dist


/-- A split that can be made. -/
structure Accepted (n precision : ℤ) (dists : List Distribution) (p : Plan) : Prop where
  nonneg : 0 ≤ n
  precision_pos : 0 < precision
  nonempty : dists ≠ []
  distinct : (identifiers dists).Nodup
  named : ∀ d ∈ dists, d.identifier ≠ "" ∧ ¬ (d.distribution ≠ "" ∧ d.preciseDistribution ≠ "")
  one_left : p.left.length ≤ 1
  readable : Readable (.ofInt precision) dists
  fixed : total p.fixed ≤ n
  percentages : total p.percentages ≤ 100
  within : total p.fixed+total (p.shares n) ≤ n
  positive : n ≠ 0 → ¬ (total p.fixed = 0 ∧ total p.percentages = 0 ∧ p.left = [])

theorem Accepted.perm (h : Accepted n precision dists p) (hperm : dists.Perm dists') : Accepted n precision dists' p :=
  { h with
    nonempty := fun hempty => h.nonempty (perm_nil.mp (hempty ▸ hperm))
    distinct := (hperm.map _).nodup_iff.mp h.distinct
    named := fun d hd => h.named d (hperm.mem_iff.mpr hd)
    readable := fun d hd => h.readable d (hperm.mem_iff.mpr hd) }

theorem Planned.legs (h : Planned precision dists p) : p.legs.Perm (identifiers dists) := by
  have hkinds := (perm_kinds dists).map Distribution.identifier
  rw [map_append,map_append] at hkinds
  have hfixed := (h.fixed.map Prod.fst).symm
  have hshares := (h.percentages.map Prod.fst).symm
  rw [← keys,← keys,keys_values] at hfixed hshares
  rw [keys_fixedEntries] at hfixed
  rw [keys_percentEntries] at hshares
  exact ((hfixed.append hshares).append h.left.symm).trans hkinds

theorem Planned.leftCount (h : Planned precision dists p) : leftCount dists = p.left.length := by
  rw [Distributions.leftCount,countP_eq_length_filter,← h.left.length_eq,identifiers,length_map]

theorem Accepted.sound (h : Accepted n precision dists p) (hplan : Planned precision dists p) : p.Sound n where
  distinct := hplan.legs.nodup_iff.mpr h.distinct
  fixed_nonneg e he := by
    have hscale : 0 ≤ (ofInt precision).coef := h.precision_pos.le
    exact fixedEntries_nonneg hscale dists e (hplan.fixed.mem_iff.mpr he)
  percentages_nonneg e he := percentEntries_nonneg dists e (hplan.percentages.mem_iff.mpr he)
  nonneg := h.nonneg
  within := h.within
  one_left := h.one_left

theorem Accepted.legs_ne (h : Accepted n precision dists p) (hplan : Planned precision dists p) : p.legs ≠ [] :=
  fun hempty => h.nonempty (map_eq_nil_iff.mp (hempty ▸ hplan.legs).nil_eq.symm)

theorem totals_adjustPercentageAmounts (s : DistributionState) :
    (adjustPercentageAmounts s).fixedTotalDec = s.fixedTotalDec ∧
      (adjustPercentageAmounts s).totalPercentage = s.totalPercentage := by
  unfold adjustPercentageAmounts
  dsimp only
  split_ifs <;> exact ⟨rfl,rfl⟩

theorem accepted_of_ok {result : List (String × ℤ)} (hplan : Planned precision dists p)
    (h : calculateVisiting v (some n) dists precision = .ok result) : Accepted n precision dists p := by
  unfold calculateVisiting at h
  dsimp only at h
  split at h
  · cases h
  rename_i hnonneg
  split at h
  · cases h
  rename_i hprecision
  split at h
  · cases h
  rename_i hne
  obtain ⟨_,hlegs,h⟩ := bind_ok h
  obtain ⟨hdistinct,hnamed⟩ := validateLegs_ok_iff.mp hlegs
  split at h
  · cases h
  rename_i hcount
  obtain ⟨s₁,hfixed,h⟩ := bind_ok h
  obtain ⟨s₂,hshare,h⟩ := bind_ok h
  obtain ⟨_,hvalid,h⟩ := bind_ok h
  have hn : 0 ≤ (initialState n precision).amountLeftDec.value := by
    simpa [initialState] using hnonneg
  obtain ⟨hreadable,hmost,rfl⟩ := (processFixedDistributions_ok_iff (not_le.mp hprecision).le hn).mp hfixed
  obtain ⟨hreadable',rfl⟩ := processPercentageDistributions_ok_iff.mp hshare
  have hfollows : Follows n p (afterShares n precision dists) := follows_passes hplan hdistinct
  obtain ⟨hpercent,hwithin⟩ := (validateDistributions_ok_iff hfollows).mp hvalid
  rw [hplan.leftCount] at h hcount
  refine ⟨not_lt.mp hnonneg,not_le.mp hprecision,hne,hdistinct,fun d hd => ⟨(hnamed d hd).1,(hnamed d hd).2.2⟩,
    not_lt.mp hcount,fun d hd => ⟨hreadable d hd,hreadable' d hd⟩,?_,hpercent,hwithin,fun hzero hnothing => ?_⟩
  · rw [← total_perm hplan.fixed]
    simpa [initialState] using hmost
  · rw [if_neg hzero] at h
    split at h
    · cases h
    rename_i hsome
    refine hsome ⟨?_,?_,length_eq_zero_iff.mpr hnothing.2.2⟩
    · refine value_eq_zero_iff.mp ?_
      change (adjustPercentageAmounts _).fixedTotalDec.value = 0
      rw [(totals_adjustPercentageAmounts _).1]
      exact hfollows.fixedTotal.trans hnothing.1
    · refine value_eq_zero_iff.mp ?_
      change (adjustPercentageAmounts _).totalPercentage.value = 0
      rw [(totals_adjustPercentageAmounts _).2]
      exact hfollows.totalPercentage.trans hnothing.2.1

theorem Accepted.calculates (h : Accepted n precision dists p) (hplan : Planned precision dists p) :
    ∃ result, calculateVisiting v (some n) dists precision = .ok result ∧ result.Perm (p.split n) := by
  have hlegs : validateLegs dists [] = .ok () :=
    validateLegs_ok_iff.mpr ⟨h.distinct,fun d hd => ⟨(h.named d hd).1,not_mem_nil,(h.named d hd).2⟩⟩
  have hfixed : processFixedDistributions dists (initialState n precision) = .ok (afterFixed n precision dists) := by
    refine (processFixedDistributions_ok_iff h.precision_pos.le ?_).mpr ⟨fun d hd => (h.readable d hd).1,?_,rfl⟩
    · simpa [initialState] using h.nonneg
    · have hmost := h.fixed
      rw [← total_perm hplan.fixed] at hmost
      simpa [initialState] using hmost
  have hshare : processPercentageDistributions dists (afterFixed n precision dists) = .ok (afterShares n precision dists) :=
    processPercentageDistributions_ok_iff.mpr ⟨fun d hd => (h.readable d hd).2,rfl⟩
  have hfollows : Follows n p (afterShares n precision dists) := follows_passes hplan h.distinct
  have hvalid := (validateDistributions_ok_iff hfollows).mpr ⟨h.percentages,h.within⟩
  unfold calculateVisiting
  dsimp only
  rw [if_neg (not_lt.mpr h.nonneg),if_neg (not_le.mpr h.precision_pos),if_neg h.nonempty,hlegs,ok_bind,
    if_neg (not_lt.mpr (hplan.leftCount ▸ h.one_left)),hfixed,ok_bind,hshare,ok_bind,hvalid,ok_bind]
  have hsound := h.sound hplan
  have hlegs := h.legs_ne hplan
  by_cases hzero : n = 0
  · subst hzero
    refine ⟨_,rfl,List.Perm.trans ?_ (hsound.split_zero hlegs)⟩
    rw [handleZeroAmount,foldl_put (by simpa [keys,identifiers] using h.distinct)]
    refine List.Perm.trans (.of_eq ?_) (hplan.legs.symm.map _)
    rw [identifiers,map_map]
    rfl
  · rw [if_neg hzero]
    have hnames : ∀ id ∈ p.legs, id ≠ "" := by
      intro id hid
      obtain ⟨d,hd,rfl⟩ := mem_map.mp (hplan.legs.mem_iff.mp hid)
      exact (h.named d hd).1
    have hvisited : Follows n p ((afterShares n precision dists).visited v) := hfollows.visited
    obtain ⟨amounts,hadjust,hamounts⟩ := hvisited.adjust hsound hnames
    rw [hadjust]
    obtain ⟨hresult,hleft⟩ := hvisited.visited.combine hsound (((v.decimals_perm amounts).map _).trans hamounts)
    obtain ⟨result,hprocess,hcut⟩ := processLeftDistribution_spec hplan hsound hresult hleft
    have hsome : ¬ ((afterShares n precision dists).fixedTotalDec.coef = 0 ∧
        (afterShares n precision dists).totalPercentage.coef = 0 ∧ leftCount dists = 0) := by
      rw [← value_eq_zero_iff,← value_eq_zero_iff,hfollows.fixedTotal,hfollows.totalPercentage,
        hplan.leftCount,length_eq_zero_iff]
      exact h.positive hzero
    refine ⟨_,(if_neg hsome).trans (congrArg (· >>= _) hprocess),?_⟩
    exact balanceDistributions_spec hfollows.totalAmount hsound hnames hlegs ((v.amounts_perm result).trans hcut)

/-- What the legs ask for. -/
def planOf (precision : ℤ) (dists : List Distribution) : Plan where
  fixed := values (fixedEntries (.ofInt precision) dists)
  percentages := values (percentEntries dists)
  left := identifiers (dists.filter isLeftDistribution)

theorem planned_planOf : Planned precision dists (planOf precision dists) := ⟨.refl _,.refl _,.refl _⟩

/-- The amounts of an accepted split are those of its plan. -/
theorem split_of_ok {result : List (String × ℤ)} (hplan : Planned precision dists p)
    (h : calculateVisiting v (some n) dists precision = .ok result) : result.Perm (p.split n) := by
  obtain ⟨result',hresult,hperm⟩ := (accepted_of_ok hplan h).calculates hplan
  rw [h] at hresult
  exact Except.ok.inj hresult ▸ hperm

theorem Accepted.keys_split (h : Accepted n precision dists p) (hplan : Planned precision dists p) :
    (keys (p.split n)).Perm (identifiers dists) :=
  ((h.sound hplan).split_raised (h.legs_ne hplan)).1.keys.trans ((h.sound hplan).perm_keys_cut.trans hplan.legs)

/-- A split that is accepted has one amount for each leg, none of them negative, and they add up to the total. -/
theorem distribution_conserves (amount : ℤ) (hpos : 0 < amount) (precision : ℤ) (dists : List Distribution)
    (result : List (String × ℤ)) (h : calculateDistributionsPrecise (some amount) dists precision = .ok result) :
    (keys result).Nodup ∧ (∀ id, id ∈ keys result ↔ id ∈ identifiers dists) ∧ (∀ e ∈ result, 0 ≤ e.2) ∧
    (result.map Prod.snd).sum = amount := by
  have haccepted := accepted_of_ok (v := inOrder) planned_planOf h
  have hperm := split_of_ok (v := inOrder) planned_planOf h
  have hkeys := (hperm.map Prod.fst).trans (haccepted.keys_split planned_planOf)
  have hsound := haccepted.sound planned_planOf
  have hlegs := haccepted.legs_ne planned_planOf
  refine ⟨hkeys.nodup_iff.mpr haccepted.distinct,fun id => hkeys.mem_iff,fun e he => ?_,?_⟩
  · exact hsound.split_nonneg hlegs e (hperm.mem_iff.mp he)
  · exact (hperm.map Prod.snd).sum_eq.trans (hsound.split_raised hlegs).2

/-- A third, a tenth of a cent, ten and the rest of one hundred, with two digits after the point. -/
theorem four_legs_conserve : ∃ result, calculateDistributionsPrecise (some 10000)
      [⟨"a","33.333%","",""⟩,⟨"b","0.001%","",""⟩,⟨"c","10","",""⟩,⟨"d","left","",""⟩] 100 = .ok result ∧
    (keys result).Nodup ∧ (∀ id, id ∈ keys result ↔ id ∈ ["a","b","c","d"]) ∧ (∀ e ∈ result, 0 ≤ e.2) ∧
    (result.map Prod.snd).sum = 10000 := by
  have h : calculateDistributionsPrecise (some 10000)
      [⟨"a","33.333%","",""⟩,⟨"b","0.001%","",""⟩,⟨"c","10","",""⟩,⟨"d","left","",""⟩] 100 =
      .ok [("c",1000),("b",0),("a",3333),("d",5667)] := by decide +kernel
  exact ⟨_,h,distribution_conserves 10000 (by decide) 100 _ _ h⟩


/-- The calculation is the one that visits maps as they were filled. Whatever the order of the legs and of the visits, it
fails, or gives every leg the same amount. -/
theorem distribution_order_independent (totalPreciseAmount : Option ℤ) (precision : ℤ) (dists dists' : List Distribution) :
    calculateVisiting inOrder = calculateDistributionsPrecise ∧ (dists.Perm dists' → ∀ v v' : Visits,
      (∃ e e', calculateVisiting v totalPreciseAmount dists precision = .error e ∧
        calculateVisiting v' totalPreciseAmount dists' precision = .error e') ∨
      ∃ result result', calculateVisiting v totalPreciseAmount dists precision = .ok result ∧
        calculateVisiting v' totalPreciseAmount dists' precision = .ok result' ∧
        (keys result).Nodup ∧ (∀ e, e ∈ result ↔ e ∈ result')) := by
  refine ⟨rfl,fun hperm v v' => ?_⟩
  cases totalPreciseAmount with
  | none => exact .inl ⟨_,_,rfl,rfl⟩
  | some n =>
    have hplan' : Planned precision dists' (planOf precision dists) := planned_planOf.perm hperm.symm
    by_cases haccepted : Accepted n precision dists (planOf precision dists)
    · obtain ⟨result,hresult,hone⟩ := haccepted.calculates planned_planOf
      obtain ⟨result',hresult',htwo⟩ := (haccepted.perm hperm).calculates hplan'
      refine .inr ⟨result,result',hresult,hresult',?_,fun e => (hone.trans htwo.symm).mem_iff⟩
      exact ((hone.map Prod.fst).trans (haccepted.keys_split planned_planOf)).nodup_iff.mpr haccepted.distinct
    refine .inl ?_
    cases h : calculateVisiting v (some n) dists precision with
    | ok result => exact absurd (accepted_of_ok planned_planOf h) haccepted
    | error e =>
      cases h' : calculateVisiting v' (some n) dists' precision with
      | ok result => exact absurd ((accepted_of_ok hplan' h').perm hperm.symm) haccepted
      | error e' => exact ⟨e,e',rfl,rfl⟩

theorem Accepted.total_due (h : Accepted n precision dists p) (hwhole : p.left ≠ [] ∨ total p.fixed+total (p.shares n) = n) :
    total (p.due n) = n := by
  have hone := h.one_left
  unfold due
  match hl : p.left with
  | [] =>
    rw [hl] at hwhole
    simpa [total] using hwhole.resolve_left (not_not.mpr rfl)
  | [id] => simp [total]
  | a :: b :: l =>
    rw [hl] at hone
    simp at hone

/-- A split of the whole total gives no leg as much as a minor unit for each leg more or less than its exact share. -/
theorem distribution_fair (n precision : ℤ) (dists : List Distribution) (result : List (String × ℤ))
    (h : calculateDistributionsPrecise (some n) dists precision = .ok result)
    (hwhole : leftCount dists ≠ 0 ∨
      total (planOf precision dists).fixed+total ((planOf precision dists).shares n) = n) :
    keys ((planOf precision dists).due n) = (planOf precision dists).legs ∧
    (planOf precision dists).legs.Perm (identifiers dists) ∧ (keys result).Perm (identifiers dists) ∧
    ∀ id x a, (id,x) ∈ (planOf precision dists).due n → (id,a) ∈ result → |(a : ℚ)-x| < dists.length := by
  have hplan : Planned precision dists (planOf precision dists) := planned_planOf
  have haccepted := accepted_of_ok (v := inOrder) hplan h
  have hperm := split_of_ok (v := inOrder) hplan h
  have hkeys := (hperm.map Prod.fst).trans (haccepted.keys_split hplan)
  refine ⟨keys_due,hplan.legs,hkeys,fun id x a hx ha => ?_⟩
  have hdue := haccepted.total_due (hwhole.imp_left fun hleft hempty => hleft (hplan.leftCount.trans (by simp [hempty])))
  have hlegs : keys ((planOf precision dists).due n) = (planOf precision dists).legs := keys_due
  have hlength : ((planOf precision dists).due n).length = dists.length := by
    have hlength := (congrArg List.length hlegs).trans hplan.legs.length_eq
    rwa [keys,length_map,identifiers,length_map] at hlength
  rw [← hlength]
  refine abs_sub_lt_length ((hlegs ▸ hplan.legs).trans (haccepted.keys_split hplan).symm) ?_ ?_ hx (hperm.mem_iff.mp ha)
  · rw [hdue,((haccepted.sound hplan).split_raised (haccepted.legs_ne hplan)).2]
  · exact fun id x a hx ha => (haccepted.sound hplan).loses_less (haccepted.legs_ne hplan) hx ha

/-- A third, half a cent and the rest of one hundred. -/
theorem three_legs_fair : ∃ result, calculateDistributionsPrecise (some 10000)
      [⟨"a","33.333%","",""⟩,⟨"b","0.005%","",""⟩,⟨"c","left","",""⟩] 100 = .ok result ∧
    ∀ id x a, (id,x) ∈ (planOf 100 [⟨"a","33.333%","",""⟩,⟨"b","0.005%","",""⟩,⟨"c","left","",""⟩]).due 10000 →
      (id,a) ∈ result → |(a : ℚ)-x| < 3 := by
  have h : calculateDistributionsPrecise (some 10000) [⟨"a","33.333%","",""⟩,⟨"b","0.005%","",""⟩,⟨"c","left","",""⟩] 100 =
      .ok [("b",0),("a",3333),("c",6667)] := by decide +kernel
  exact ⟨_,h,(distribution_fair 10000 100 _ _ h (.inl (by decide))).2.2.2⟩

end LedgerForge.Distributions

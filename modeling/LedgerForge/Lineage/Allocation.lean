import LedgerForge.Lineage.Processing

/-! # Allocation among lineage sources

In order of age the sources are used up one after the other. A proportional allocation rounds every share down, leaves the
rest to the last source and cuts it there: what does not fit is not allocated at all.
-/

namespace LedgerForge.Lineage

open List LineageSource

variable {sources order : List LineageSource} {taken : List ℤ} {allocations : List Allocation} {amount : ℤ}

/-- An order that the sort of the strategy may come to. -/
def Strategy.Arranged : Strategy → List LineageSource → List LineageSource → Prop
  | .fifo, sources, order => order.Perm sources ∧ order.Pairwise fun a b => a.createdAt ≤ b.createdAt
  | .lifo, sources, order => order.Perm sources ∧ order.Pairwise fun a b => b.createdAt ≤ a.createdAt
  | .proportional, sources, order => order = sources

/-- The allocation once the sources are in order. -/
def Strategy.allocate : Strategy → List LineageSource → ℤ → List Allocation
  | .proportional => proportionalAllocation
  | _ => sequentialAllocation

theorem exists_arranged (strategy : Strategy) (sources : List LineageSource) (amount : ℤ) : ∃ order,
    strategy.Arranged sources order ∧ calculateAllocation sources amount strategy = strategy.allocate order amount := by
  cases strategy with
  | fifo =>
    exact ⟨_,⟨perm_insertionSort _ _,pairwise_insertionSort _ _⟩,rfl⟩
  | lifo =>
    exact ⟨_,⟨perm_insertionSort _ _,pairwise_insertionSort _ _⟩,rfl⟩
  | proportional => exact ⟨sources,rfl,rfl⟩

/-- The allocations are what is taken from each source, without zeros. -/
def Assigned (order : List LineageSource) (taken : List ℤ) (allocations : List Allocation) : Prop :=
  taken.length = order.length ∧
    allocations = (order.zip taken).filterMap fun x => if 0 < x.2 then some ⟨x.1.balanceID,x.2⟩ else none

variable {a : ℤ}

theorem Assigned.cons (h : Assigned order taken allocations) (source : LineageSource) (ha : 0 < a) :
    Assigned (source :: order) (a :: taken) (⟨source.balanceID,a⟩ :: allocations) := by
  refine ⟨congrArg Nat.succ h.1,?_⟩
  rw [zip_cons_cons,filterMap_cons,if_pos ha,h.2]

theorem Assigned.skip (h : Assigned order taken allocations) (source : LineageSource) (ha : a ≤ 0) :
    Assigned (source :: order) (a :: taken) allocations := by
  refine ⟨congrArg Nat.succ h.1,?_⟩
  rw [zip_cons_cons,filterMap_cons,if_neg ha.not_gt,h.2]

theorem Assigned.not_pos (h : Assigned order taken []) : ∀ x ∈ order.zip taken, ¬ 0 < x.2 := by
  intro x hx hpos
  have hnone := filterMap_eq_nil_iff.mp h.2.symm x hx
  rw [if_pos hpos] at hnone
  cases hnone

/-- Nothing is left as long as there is something to take, and no source gives more than it has. -/
structure Complete (strategy : Strategy) (order : List LineageSource) (amount : ℤ) (allocations : List Allocation) : Prop where
  total : (allocations.map Allocation.amount).sum = min amount (order.map balance).sum
  taken : ∃ taken, Assigned order taken allocations ∧ (∀ x ∈ order.zip taken, 0 ≤ x.2 ∧ x.2 ≤ x.1.balance) ∧
    (strategy ≠ .proportional → (order.zip taken).Pairwise fun x y => 0 < y.2 → x.2 = x.1.balance)

theorem sum_balances_nonneg (hpos : ∀ s ∈ order, 0 < s.balance) : 0 ≤ (order.map balance).sum :=
  sum_nonneg fun b hb => by
    obtain ⟨s,hs,rfl⟩ := mem_map.mp hb
    exact (hpos s hs).le

theorem complete_nil {strategy : Strategy} (hpos : ∀ s ∈ order, 0 < s.balance) : Complete strategy order 0 [] where
  total := (min_eq_left (sum_balances_nonneg hpos)).symm
  taken := by
    have hzero : ∀ x ∈ order.zip (List.replicate order.length (0 : ℤ)), x.2 = 0 := fun x hx =>
      eq_of_mem_replicate (of_mem_zip hx).2
    refine ⟨List.replicate order.length 0,⟨length_replicate,?_⟩,fun x hx => ?_,fun _ => ?_⟩
    · refine (filterMap_eq_nil_iff.mpr fun x hx => ?_).symm
      rw [hzero x hx,if_neg (lt_irrefl _)]
    · rw [hzero x hx]
      exact ⟨le_rfl,(hpos _ (of_mem_zip hx).1).le⟩
    · exact pairwise_of_forall_mem_list fun x _ y hy hlt => absurd (hzero y hy) hlt.ne'

theorem complete_sequential {strategy : Strategy} (hpos : ∀ s ∈ order, 0 < s.balance) (hamount : 0 ≤ amount) :
    Complete strategy order amount (sequentialAllocation order amount) := by
  induction order generalizing amount with
  | nil => exact ⟨(min_eq_right hamount).symm,[],⟨rfl,rfl⟩,nofun,fun _ => .nil⟩
  | cons source order ih =>
    rcases hamount.eq_or_lt with rfl | hlt
    · exact complete_nil hpos
    rw [forall_mem_cons] at hpos
    have hrest : Complete strategy order (amount-min amount source.balance) _ := ih hpos.2 (by omega)
    have ha : 0 < min amount source.balance := lt_min hlt hpos.1
    have heq : sequentialAllocation (source :: order) amount = ⟨source.balanceID,min amount source.balance⟩ ::
        sequentialAllocation order (amount-min amount source.balance) := by
      rw [sequentialAllocation,if_neg hlt.not_ge]
      rw [← min_def,if_neg ha.not_ge]
    have hnonneg := sum_balances_nonneg hpos.2
    obtain ⟨htotal,taken,hassigned,hbounds,hused⟩ := hrest
    rw [heq]
    refine ⟨?_,_,hassigned.cons source ha,?_,fun hs => ?_⟩
    · rw [map_cons,sum_cons,map_cons,sum_cons]
      dsimp only
      omega
    · rw [zip_cons_cons,forall_mem_cons]
      exact ⟨⟨ha.le,min_le_right _ _⟩,hbounds⟩
    · rw [zip_cons_cons,pairwise_cons]
      refine ⟨fun y hy hpositive => ?_,hused hs⟩
      -- an amount that the source covers leaves nothing for the others
      by_contra hne
      have hdone : amount-min amount source.balance = 0 := by
        dsimp only at hne
        omega
      have hempty : sequentialAllocation order 0 = [] := by cases order <;> rfl
      rw [hdone,hempty] at hassigned
      exact (hassigned.not_pos y hy) hpositive

/-- The shares before the last one, rounded down. -/
def floors (effective total : ℤ) (order : List LineageSource) : ℤ :=
  (order.map fun s => effective*s.balance/total).sum

/-- What the last source is left with fits into it. -/
def RestFits (sources : List LineageSource) (amount : ℤ) : Prop :=
  let total := (sources.map balance).sum
  ∀ last ∈ sources.getLast?, min amount total-floors (min amount total) total sources.dropLast ≤ last.balance

variable {effective total remaining : ℤ}

theorem mul_floors_le (htotal : 0 < total) :
    total*floors effective total order ≤ effective*(order.map balance).sum := by
  unfold floors
  induction order with
  | nil => simp
  | cons source order ih =>
    have hfloor : total*(effective*source.balance/total) ≤ effective*source.balance := Int.mul_ediv_self_le htotal.ne'
    simp only [map_cons,sum_cons,mul_add]
    omega

/-- A source gives an amount within its balance, and zero is not recorded. -/
theorem proportionalShares_cons (source : LineageSource) (hnonneg : 0 ≤ a)
    (ha : min (if order = [] then remaining else effective*source.balance/total) source.balance = a) :
    ((proportionalShares effective total (source :: order) remaining).map Allocation.amount).sum =
        a+((proportionalShares effective total order (remaining-a)).map Allocation.amount).sum ∧
      ∀ taken, Assigned order taken (proportionalShares effective total order (remaining-a)) →
        Assigned (source :: order) (a :: taken) (proportionalShares effective total (source :: order) remaining) := by
  rw [proportionalShares,ha]
  rcases hnonneg.eq_or_lt with rfl | hlt
  · rw [sub_zero,zero_add]
    exact ⟨rfl,fun taken h => h.skip source le_rfl⟩
  · rw [if_neg hlt.not_ge]
    exact ⟨rfl,fun taken h => h.cons source hlt⟩

/-- The last source takes what fits of the rest. -/
theorem proportionalShares_spec {init : List LineageSource} {last : LineageSource}
    (hpos : ∀ s ∈ init ++ [last], 0 < s.balance) (heffective : 0 ≤ effective) (hle : effective ≤ total) (htotal : 0 < total)
    (hremaining : floors effective total init ≤ remaining) :
    ((proportionalShares effective total (init ++ [last]) remaining).map Allocation.amount).sum =
        floors effective total init+min (remaining-floors effective total init) last.balance ∧
      ∃ taken, Assigned (init ++ [last]) taken (proportionalShares effective total (init ++ [last]) remaining) ∧
        ∀ x ∈ (init ++ [last]).zip taken, 0 ≤ x.2 ∧ x.2 ≤ x.1.balance := by
  induction init generalizing remaining with
  | nil =>
    have hnonneg : 0 ≤ min remaining last.balance := le_min hremaining (hpos last mem_cons_self).le
    have ha : min (if ([] : List LineageSource) = [] then remaining else effective*last.balance/total) last.balance =
        min remaining last.balance := by
      rw [if_pos rfl]
    obtain ⟨hsum,hassigned⟩ := proportionalShares_cons last hnonneg ha
    refine ⟨hsum.trans ?_,_,hassigned [] ⟨rfl,rfl⟩,forall_mem_singleton.mpr ⟨hnonneg,min_le_right _ _⟩⟩
    simp [proportionalShares,floors]
  | cons source init ih =>
    rw [cons_append,forall_mem_cons] at hpos
    have hshare : 0 ≤ effective*source.balance/total := Int.ediv_nonneg (mul_nonneg heffective hpos.1.le) htotal.le
    have hfits : effective*source.balance/total ≤ source.balance := by
      refine Int.ediv_le_of_le_mul htotal ?_
      rw [mul_comm]
      exact mul_le_mul_of_nonneg_left hle hpos.1.le
    have ha : min (if init ++ [last] = [] then remaining else effective*source.balance/total) source.balance =
        effective*source.balance/total := by
      rw [if_neg (append_ne_nil_of_right_ne_nil _ (cons_ne_nil _ _)),min_eq_left hfits]
    have hfloors : floors effective total (source :: init) = effective*source.balance/total+floors effective total init :=
      sum_cons
    obtain ⟨hsum,hassigned⟩ := proportionalShares_cons source hshare ha
    rw [hfloors] at hremaining ⊢
    obtain ⟨hrest,taken,htaken,hbounds⟩ := ih hpos.2 (le_sub_iff_add_le'.mpr hremaining)
    refine ⟨?_,_,hassigned taken htaken,?_⟩
    · rw [cons_append,hsum,hrest,← sub_sub,add_assoc]
    · rw [cons_append,zip_cons_cons,forall_mem_cons]
      exact ⟨⟨hshare,hfits⟩,hbounds⟩

theorem complete_proportional_iff (hpos : ∀ s ∈ order, 0 < s.balance) (hamount : 0 < amount) :
    Complete .proportional order amount (proportionalAllocation order amount) ↔ RestFits order amount := by
  rcases eq_nil_or_concat order with rfl | ⟨init,last,rfl⟩
  · refine iff_of_true ?_ nofun
    rw [show proportionalAllocation [] amount = [] by simp [proportionalAllocation]]
    exact ⟨(min_eq_right hamount.le).symm,[],⟨rfl,rfl⟩,nofun,fun _ => .nil⟩
  rw [concat_eq_append] at hpos ⊢
  obtain ⟨total,htotal⟩ : ∃ total, total = ((init ++ [last]).map balance).sum := ⟨_,rfl⟩
  have hinit : 0 ≤ (init.map balance).sum :=
    sum_balances_nonneg fun s hs => hpos s (mem_append_left _ hs)
  have hlast : 0 < last.balance := hpos last (mem_append_right _ (mem_singleton_self _))
  have hsplit : total = (init.map balance).sum+last.balance := by
    rw [htotal,map_append,sum_append,map_singleton,sum_singleton]
  have htotalpos : 0 < total := by omega
  have heffective : 0 ≤ min amount total := le_min hamount.le htotalpos.le
  have hbelow : floors (min amount total) total init ≤ min amount total := by
    refine le_of_mul_le_mul_left ((mul_floors_le htotalpos).trans ?_) htotalpos
    rw [mul_comm total]
    exact mul_le_mul_of_nonneg_left (by omega) heffective
  have hcond : ¬ (amount ≤ 0 ∨ total = 0) := by omega
  obtain ⟨hsum,taken,hassigned,hbounds⟩ :=
    proportionalShares_spec hpos heffective (min_le_right _ _) htotalpos hbelow
  unfold RestFits proportionalAllocation
  simp only [← htotal,if_neg hcond,List.getLast?_concat,dropLast_concat,Option.mem_some_iff,forall_eq']
  constructor
  · intro h
    have hall := hsum.symm.trans h.total
    omega
  · intro hfits
    refine ⟨?_,taken,hassigned,hbounds,absurd rfl⟩
    omega

/-- Allocations are complete in order of age, and proportionally exactly if the last source has room for the rest. -/
theorem lineage_allocation_complete (strategy : Strategy) (sources : List LineageSource) (amount : ℤ)
    (hpos : ∀ s ∈ sources, 0 < s.balance) (hamount : 0 < amount) :
    (∃ order, strategy.Arranged sources order ∧
      calculateAllocation sources amount strategy = strategy.allocate order amount) ∧
    ∀ order, strategy.Arranged sources order → (Complete strategy order amount (strategy.allocate order amount) ↔
      (strategy = .proportional → RestFits sources amount)) := by
  refine ⟨exists_arranged strategy sources amount,fun order harranged => ?_⟩
  cases strategy with
  | fifo => exact iff_of_true (complete_sequential (fun s hs => hpos s (harranged.1.mem_iff.mp hs)) hamount.le) nofun
  | lifo => exact iff_of_true (complete_sequential (fun s hs => hpos s (harranged.1.mem_iff.mp hs)) hamount.le) nofun
  | proportional =>
    obtain rfl : order = sources := harranged
    exact (complete_proportional_iff hpos hamount).trans ⟨fun h _ => h,fun h => h rfl⟩

/-- Four units from two sources: the older one is used up first, and the shares are equal. -/
theorem two_sources_complete : Complete .fifo [⟨"old",3,1⟩,⟨"new",3,2⟩] 4 [⟨"old",3⟩,⟨"new",1⟩] ∧
    Complete .proportional [⟨"old",3,1⟩,⟨"new",3,2⟩] 4 [⟨"old",2⟩,⟨"new",2⟩] := by
  constructor
  · exact ((lineage_allocation_complete .fifo [⟨"new",3,2⟩,⟨"old",3,1⟩] 4 (by decide) (by decide)).2 _
      ⟨by decide,by decide⟩).mpr nofun
  · refine ((lineage_allocation_complete .proportional _ 4 (by decide) (by decide)).2 _ rfl).mpr fun _ => ?_
    unfold RestFits
    decide

/-- The shares of the first two sources are rounded down to nothing, and the last one has a single unit. -/
theorem proportional_rest_lost : calculateAllocation [⟨"a",1,1⟩,⟨"b",1,2⟩,⟨"c",1,3⟩] 2 .proportional = [⟨"c",1⟩] ∧
    ∀ order, Strategy.proportional.Arranged [⟨"a",1,1⟩,⟨"b",1,2⟩,⟨"c",1,3⟩] order →
      ¬ Complete .proportional order 2 (calculateAllocation [⟨"a",1,1⟩,⟨"b",1,2⟩,⟨"c",1,3⟩] 2 .proportional) := by
  have hresult : calculateAllocation [⟨"a",1,1⟩,⟨"b",1,2⟩,⟨"c",1,3⟩] 2 .proportional = [⟨"c",1⟩] := by decide
  refine ⟨hresult,?_⟩
  rintro _ rfl h
  have htotal := h.total
  revert htotal
  decide

end LedgerForge.Lineage

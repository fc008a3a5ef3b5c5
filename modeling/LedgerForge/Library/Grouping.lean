import LedgerForge.Library.Paging

/-! # Grouping records that are read page by page

A table is read in the order of a key, one page after the other, and every page is grouped by that key on its own. The
records of one key stand together, so a group comes whole exactly when no page ends inside it.
-/

namespace LedgerForge.Grouping

open List Prod Nat Function Paging

variable {κ α : Type*} [DecidableEq κ]

def addTo : List (κ × List α) → κ → α → List (κ × List α)
  | [], k, x => [(k,[x])]
  | (k',xs) :: groups, k, x => if k' = k then (k',xs ++ [x]) :: groups else (k',xs) :: addTo groups k x

/-- The groups of keyed records, each in the order of the records. -/
def group (l : List (κ × α)) : List (κ × List α) := l.foldl (fun groups p => addTo groups p.1 p.2) []

def members (k : κ) (l : List (κ × α)) : List α := (l.filter fun p => p.1 = k).map snd

variable {k k' : κ} {x : α} {xs : List α} {l l' : List (κ × α)} {groups : List (κ × List α)}

theorem members_append : members k (l ++ l') = members k l ++ members k l' := by
  simp [members]

theorem members_eq_nil : members k l = [] ↔ ∀ p ∈ l, p.1 ≠ k := by
  simp [members]

theorem exists_of_members_ne_nil (h : members k l ≠ []) : ∃ p ∈ l, p.1 = k := by
  by_contra hnone
  exact h (members_eq_nil.mpr fun p hp hk => hnone ⟨p,hp,hk⟩)

theorem members_perm (h : l.Perm l') : (members k l).Perm (members k l') := (h.filter _).map _

theorem length_members : (members k l).length = l.countP fun p => p.1 = k := by
  rw [members,length_map,countP_eq_length_filter]

theorem map_fst_addTo : (addTo groups k x).map fst =
    if k ∈ groups.map fst then groups.map fst else groups.map fst ++ [k] := by
  induction groups with
  | nil => rfl
  | cons g groups ih =>
    rw [addTo]
    split
    · next hk => simp [hk]
    next hk =>
    have hne : k ≠ g.1 := fun h => hk h.symm
    rw [map_cons,ih]
    simp only [map_cons,mem_cons,hne,false_or]
    split <;> rfl

theorem mem_addTo (hn : (groups.map fst).Nodup) : (k',xs) ∈ addTo groups k x ↔
    (k' ≠ k ∧ (k',xs) ∈ groups) ∨
      (k' = k ∧ ((∃ ys, (k,ys) ∈ groups ∧ xs = ys ++ [x]) ∨ (k ∉ groups.map fst ∧ xs = [x]))) := by
  induction groups with
  | nil => simp [addTo]
  | cons g groups ih =>
    obtain ⟨kg,ys⟩ := g
    obtain ⟨hg,hn⟩ := nodup_cons.mp hn
    rw [addTo]
    split
    · next hk =>
      subst hk
      have habsent : ∀ zs, (kg,zs) ∉ groups := fun zs hmem => hg (mem_map.mpr ⟨_,hmem,rfl⟩)
      by_cases hkk : k' = kg
      · subst hkk
        simp [habsent]
      · simp [hkk]
    · next hk =>
      rw [mem_cons,ih hn]
      have hne : k ≠ kg := fun h => hk h.symm
      by_cases hkk : k' = k
      · subst hkk
        simp [hne]
      · simp [hkk]

theorem group_concat (l : List (κ × α)) (p : κ × α) : group (l ++ [p]) = addTo (group l) p.1 p.2 := by
  rw [group,foldl_append]
  rfl

theorem group_keys_nodup (l : List (κ × α)) : ((group l).map fst).Nodup := by
  induction l using List.reverseRecOn with
  | nil => exact nodup_nil
  | append_singleton l p ih =>
    rw [group_concat,map_fst_addTo]
    split
    · exact ih
    · next hnew => exact nodup_append_comm.mp (nodup_cons.mpr ⟨hnew,ih⟩)

theorem mem_group : (k,xs) ∈ group l ↔ xs = members k l ∧ xs ≠ [] := by
  induction l using List.reverseRecOn generalizing k xs with
  | nil => simp [group,members]
  | append_singleton l p ih =>
    have hkeys : p.1 ∉ (group l).map fst ↔ members p.1 l = [] := by
      rw [← not_iff_not,not_not]
      constructor
      · intro h
        obtain ⟨⟨k,ys⟩,hg,rfl⟩ := mem_map.mp h
        obtain ⟨rfl,hne⟩ := ih.mp hg
        exact hne
      · exact fun h => mem_map_of_mem (ih.mpr ⟨rfl,h⟩)
    rw [group_concat,mem_addTo (group_keys_nodup l),members_append]
    by_cases hk : k = p.1
    · subst hk
      have hlast : members p.1 [p] = [p.2] := by simp [members]
      rw [hlast,hkeys]
      simp only [ne_eq,not_true_eq_false,false_and,true_and,false_or,ih]
      constructor
      · rintro (⟨ys,⟨rfl,-⟩,rfl⟩ | ⟨hnil,rfl⟩)
        · simp
        · simp [hnil]
      · rintro ⟨rfl,-⟩
        by_cases hnil : members p.1 l = []
        · exact .inr ⟨hnil,by rw [hnil,nil_append]⟩
        · exact .inl ⟨_,⟨rfl,hnil⟩,rfl⟩
    · have hlast : members k [p] = [] := members_eq_nil.mpr (by simpa using fun h => hk h.symm)
      rw [hlast,ih]
      simp [hk]

theorem group_eq_nil : group l = [] ↔ l = [] := by
  constructor
  · intro h
    by_contra hne
    obtain ⟨p,hp⟩ := exists_mem_of_ne_nil l hne
    have hmem : (p.1,members p.1 l) ∈ group l :=
      mem_group.mpr ⟨rfl,fun hnil => members_eq_nil.mp hnil p hp rfl⟩
    rw [h] at hmem
    exact absurd hmem not_mem_nil
  · rintro rfl
    rfl

section Ordered

variable {δ : Type*} [LinearOrder δ] {rank : κ → δ}

def below (rank : κ → δ) (k : κ) (l : List (κ × α)) : ℕ := l.countP fun p => rank p.1 < rank k

omit [DecidableEq κ] in
theorem below_perm (h : l.Perm l') : below rank k l = below rank k l' := h.countP_eq _

omit [DecidableEq κ] in
theorem split_at (h : l.Pairwise fun p q => rank p.1 ≤ rank q.1) (c : δ) :
    l = (l.filter fun p => rank p.1 < c) ++ (l.filter fun p => rank p.1 = c) ++ (l.filter fun p => c < rank p.1) := by
  induction l with
  | nil => rfl
  | cons p l ih =>
    obtain ⟨hp,hl⟩ := pairwise_cons.mp h
    have hfirst : ∀ d, d ≤ rank p.1 → (l.filter fun q => rank q.1 < d) = [] := fun d hd =>
      filter_eq_nil_iff.mpr fun q hq => by simpa using hd.trans (hp q hq)
    rcases lt_trichotomy (rank p.1) c with hlt | heq | hgt
    · simp only [filter_cons,hlt,hlt.ne,hlt.not_gt,decide_true,decide_false,if_true]
      nth_rewrite 1 [ih hl]
      simp
    · nth_rewrite 1 [ih hl]
      simp [heq,hfirst c heq.ge]
    · have hnone : (l.filter fun q => decide (rank q.1 = c)) = [] :=
        filter_eq_nil_iff.mpr fun q hq => by simpa using (hgt.trans_le (hp q hq)).ne'
      nth_rewrite 1 [ih hl]
      simp [hgt,hgt.ne',hgt.not_gt,hfirst c hgt.le,hnone]

/-- The part of a group that a page has. -/
theorem members_page (hr : Injective rank) (h : l.Pairwise fun p q => rank p.1 ≤ rank q.1) (k : κ)
    (offset size : ℕ) : members k (page offset size l) =
      ((members k l).take (offset+size-below rank k l)).drop (offset-below rank k l) := by
  have hsame : ∀ p : κ × α, decide (rank p.1 = rank k) = decide (p.1 = k) := fun p => by simp only [hr.eq_iff]
  obtain ⟨before,hbefore⟩ : ∃ b, b = l.filter fun p => rank p.1 < rank k := ⟨_,rfl⟩
  obtain ⟨after,hafter⟩ : ∃ a, a = l.filter fun p => rank k < rank p.1 := ⟨_,rfl⟩
  obtain ⟨mid,hmid⟩ : ∃ m, m = l.filter fun p => p.1 = k := ⟨_,rfl⟩
  have hsplit : l = before ++ mid ++ after := by
    rw [hbefore,hmid,hafter]
    nth_rewrite 1 [split_at h (rank k)]
    simp only [hsame]
  have hlength : below rank k l = before.length := by rw [below,countP_eq_length_filter,hbefore]
  have hout : ∀ m : List (κ × α), (∀ p ∈ m, p.1 ≠ k) → ∀ i j, ((m.take i).drop j).filter (fun p => p.1 = k) = [] := by
    intro m hm i j
    refine filter_eq_nil_iff.mpr fun p hp => ?_
    simpa using hm p (mem_of_mem_take (mem_of_mem_drop hp))
  have hb : ∀ p ∈ before, p.1 ≠ k := by
    rintro p hp rfl
    rw [hbefore] at hp
    simpa using (mem_filter.mp hp).2
  have ha : ∀ p ∈ after, p.1 ≠ k := by
    rintro p hp rfl
    rw [hafter] at hp
    simpa using (mem_filter.mp hp).2
  have hm : ∀ i j, ((mid.take i).drop j).filter (fun p => p.1 = k) = (mid.take i).drop j := by
    intro i j
    refine filter_eq_self.mpr fun p hp => ?_
    have hp := mem_of_mem_take (mem_of_mem_drop hp)
    rw [hmid] at hp
    exact (mem_filter.mp hp).2
  have hpage : page offset size l = (l.take (offset+size)).drop offset := by
    rw [page,drop_take,Nat.add_sub_cancel_left]
  rw [members,members,← hmid,hpage,hlength,hsplit]
  rw [take_append,take_append,drop_append,drop_append,filter_append,filter_append,hout _ hb,
    hout _ ha,hm,nil_append,append_nil,map_drop,map_take]
  -- The rest of the offset after the records before the group; a page that ends before them has nothing of it.
  by_cases hcut : before.length ≤ offset+size
  · rw [length_take,min_eq_right hcut]
  · have hzero : offset+size-before.length = 0 := by omega
    rw [hzero,take_zero,drop_nil,drop_nil]

/-- The order in which a query returns its records: some order that fits, chosen anew for every table. -/
structure Arrangement (le : α → α → Prop) where
  order : List α → List α
  perm : ∀ l, (order l).Perm l
  sorted : ∀ l, (order l).Pairwise le

/-- Insertion sort is such an order. -/
def Arrangement.ofSort (le : α → α → Prop) [DecidableRel le] [Std.Total le] [IsTrans α le] : Arrangement le where
  order := List.insertionSort le
  perm := perm_insertionSort le
  sorted := pairwise_insertionSort le

/-- The pages from an offset on, until one is empty. -/
def served (pageAt : ℕ → List (κ × List α)) (size : ℕ) : ℕ → ℕ → List (List (κ × List α))
  | 0, _ => []
  | fuel+1, offset =>
    if (pageAt offset).isEmpty then [] else pageAt offset :: served pageAt size fuel (offset+size)

section Served

variable {pageAt : ℕ → List (κ × List α)} {size fuel offset total : ℕ} {g : κ × List α}

omit [DecidableEq κ] in
theorem of_mem_served {page : List (κ × List α)} (h : page ∈ served pageAt size fuel offset) :
    page ≠ [] ∧ ∃ i, page = pageAt (offset+i*size) := by
  induction fuel generalizing offset with
  | zero => exact absurd h not_mem_nil
  | succ fuel ih =>
    rw [served] at h
    split at h
    · exact absurd h not_mem_nil
    next hne =>
    rcases mem_cons.mp h with rfl | h
    · exact ⟨by simpa using hne,0,by simp⟩
    · obtain ⟨hpage,i,rfl⟩ := ih h
      exact ⟨hpage,i+1,congrArg pageAt (by ring)⟩

omit [DecidableEq κ] in
theorem mem_served (hsize : 0 < size) (hnil : ∀ o, pageAt o = [] ↔ total ≤ o) (hfuel : total < offset+fuel) {i : ℕ}
    (hi : offset+i*size < total) : pageAt (offset+i*size) ∈ served pageAt size fuel offset := by
  induction fuel generalizing offset i with
  | zero => omega
  | succ fuel ih =>
    have hne : ¬ (pageAt offset).isEmpty = true := by
      rw [List.isEmpty_iff,hnil]
      omega
    rw [served,if_neg hne]
    cases i with
    | zero => simp
    | succ i =>
      have hstep : offset+(i+1)*size = offset+size+i*size := by ring
      rw [hstep] at hi ⊢
      exact mem_cons_of_mem _ (ih (by omega) hi)

omit [DecidableEq κ] in
theorem served_keys_nodup (hkeys : ∀ o, ((pageAt o).map fst).Nodup)
    (hdisjoint : ∀ i j k, k ∈ (pageAt (i*size)).map fst → k ∈ (pageAt (j*size)).map fst → i = j) (n : ℕ) :
    ((served pageAt size fuel (n*size)).flatten.map fst).Nodup := by
  induction fuel generalizing n with
  | zero => exact nodup_nil
  | succ fuel ih =>
    rw [served]
    split
    · exact nodup_nil
    have hnext : n*size+size = (n+1)*size := by ring
    rw [flatten_cons,map_append,hnext]
    refine nodup_append'.mpr ⟨hkeys _,ih (n+1),fun k hk hlater => ?_⟩
    obtain ⟨g,hg,rfl⟩ := mem_map.mp hlater
    obtain ⟨page,hpage,hg⟩ := mem_flatten.mp hg
    obtain ⟨-,i,rfl⟩ := of_mem_served hpage
    have hsum : (n+1)*size+i*size = (n+1+i)*size := by ring
    rw [hsum] at hg
    have := hdisjoint n (n+1+i) g.1 hk (mem_map_of_mem hg)
    omega

end Served

variable {rows : List (κ × α)} {size : ℕ}

/-- What one page of the ordered table is grouped to. -/
def pageGroups (arr : Arrangement fun p q : κ × α => rank p.1 ≤ rank q.1) (size : ℕ) (rows : List (κ × α)) (offset : ℕ) :
    List (κ × List α) := group (page offset size (arr.order rows))

/-- All pages of the table, every one with its own order of records that have the same key. -/
def allPages (arrs : ℕ → Arrangement fun p q : κ × α => rank p.1 ≤ rank q.1) (size : ℕ) (rows : List (κ × α)) :
    List (List (κ × List α)) := served (fun offset => pageGroups (arrs offset) size rows offset) size (rows.length+1) 0

/-- Every key has one group, with all its records. -/
structure Whole (groups : List (κ × List α)) (rows : List (κ × α)) : Prop where
  once : (groups.map fst).Nodup
  full : ∀ k xs, (k,xs) ∈ groups → xs.Perm (members k rows)
  each : ∀ p ∈ rows, p.1 ∈ groups.map fst

/-- No page ends inside a group: the group fits into what is left of the page it starts on. -/
def Uncut (rank : κ → δ) (size : ℕ) (rows : List (κ × α)) : Prop :=
  ∀ p ∈ rows, below rank p.1 rows % size+(members p.1 rows).length ≤ size
deriving Decidable

theorem pageGroups_eq_nil (arr : Arrangement fun p q : κ × α => rank p.1 ≤ rank q.1) (hsize : 0 < size) (offset : ℕ) :
    pageGroups arr size rows offset = [] ↔ rows.length ≤ offset := by
  rw [pageGroups,group_eq_nil,page,take_eq_nil_iff,drop_eq_nil_iff,(arr.perm rows).length_eq]
  omega

theorem mem_pageGroups (hr : Injective rank) (arr : Arrangement fun p q : κ × α => rank p.1 ≤ rank q.1)
    (offset : ℕ) : (k,xs) ∈ pageGroups arr size rows offset ↔
      xs = ((members k (arr.order rows)).take (offset+size-below rank k rows)).drop (offset-below rank k rows) ∧ xs ≠ [] := by
  rw [pageGroups,mem_group,members_page hr (arr.sorted rows),below_perm (arr.perm rows)]

theorem segment_of_uncut {ms : List α} {a i : ℕ} (hsize : 0 < size) (hfit : a % size+ms.length ≤ size)
    (hne : (ms.take (i*size+size-a)).drop (i*size-a) ≠ []) :
    i = a/size ∧ (ms.take (i*size+size-a)).drop (i*size-a) = ms := by
  have hdiv := div_add_mod' a size
  rw [ne_eq,drop_eq_nil_iff,length_take] at hne
  have hi : i = a/size := by
    rcases lt_trichotomy i (a/size) with hlt | heq | hgt
    · have := mul_le_mul_right size (succ_le_of_lt hlt)
      rw [succ_mul] at this
      omega
    · exact heq
    · have := mul_le_mul_right size (succ_le_of_lt hgt)
      rw [succ_mul] at this
      omega
  subst hi
  have hstart : a/size*size-a = 0 := by omega
  exact ⟨rfl,by rw [hstart,drop_zero,take_of_length_le (by omega)]⟩

theorem below_add_members_le (rank : κ → δ) (k : κ) (rows : List (κ × α)) :
    below rank k rows+(members k rows).length ≤ rows.length := by
  rw [length_members,length_eq_countP_add_countP (fun p => rank p.1 < rank k)]
  refine Nat.add_le_add_left (countP_mono_left fun p _ hp => ?_) _
  have hk : p.1 = k := of_decide_eq_true hp
  simp [hk]

theorem exists_start (hr : Injective rank) (hsize : 0 < size)
    (arrs : ℕ → Arrangement fun p q : κ × α => rank p.1 ≤ rank q.1) {p : κ × α} (hp : p ∈ rows) :
    ∃ xs, (p.1,xs) ∈ (allPages arrs size rows).flatten ∧
      xs.length = min (size-below rank p.1 rows % size) (members p.1 rows).length := by
  have htotal := below_add_members_le rank p.1 rows
  have hpos : 0 < (members p.1 rows).length :=
    length_pos_iff.mpr fun hnone => members_eq_nil.mp hnone p hp rfl
  obtain ⟨a,ha⟩ : ∃ a, a = below rank p.1 rows := ⟨_,rfl⟩
  have hdiv := div_add_mod' a size
  have hmod := mod_lt a hsize
  obtain ⟨arr,harr⟩ : ∃ arr, arr = arrs (0+a/size*size) := ⟨_,rfl⟩
  have hlength : (members p.1 (arr.order rows)).length = (members p.1 rows).length :=
    (members_perm (arr.perm rows)).length_eq
  rw [← ha] at htotal ⊢
  refine ⟨(members p.1 (arr.order rows)).take (size-a % size),
    mem_flatten.mpr ⟨pageGroups arr size rows (0+a/size*size),?_,?_⟩,?_⟩
  · rw [harr]
    exact mem_served hsize (fun o => pageGroups_eq_nil _ hsize o) (by omega) (by omega)
  · rw [mem_pageGroups hr,← ha]
    have hstart : 0+a/size*size-a = 0 := by omega
    have hrest : 0+a/size*size+size-a = size-a % size := by omega
    refine ⟨by rw [hstart,hrest,drop_zero],?_⟩
    rw [ne_eq,take_eq_nil_iff,← length_eq_zero_iff]
    omega
  · rw [length_take,hlength]

theorem mem_pageGroups_of_uncut (hr : Injective rank) (hsize : 0 < size) (huncut : Uncut rank size rows)
    (arr : Arrangement fun p q : κ × α => rank p.1 ≤ rank q.1) {i : ℕ}
    (hg : (k,xs) ∈ pageGroups arr size rows (i*size)) :
    i = below rank k rows/size ∧ xs = members k (arr.order rows) := by
  obtain ⟨hxs,hne⟩ := (mem_pageGroups hr arr _).mp hg
  have hperm := members_perm (k := k) (arr.perm rows)
  rw [hxs] at hne
  obtain ⟨p,hp,rfl⟩ := exists_of_members_ne_nil (l := rows) (by
    intro hnil
    rw [hnil] at hperm
    simp [hperm.eq_nil] at hne)
  have hfit := huncut p hp
  rw [← hperm.length_eq] at hfit
  obtain ⟨hi,hall⟩ := segment_of_uncut hsize hfit hne
  exact ⟨hi,hxs.trans hall⟩

theorem mem_allPages_of_uncut (hr : Injective rank) (hsize : 0 < size) (huncut : Uncut rank size rows)
    {arrs : ℕ → Arrangement fun p q : κ × α => rank p.1 ≤ rank q.1} (hg : (k,xs) ∈ (allPages arrs size rows).flatten) :
    xs = members k ((arrs (below rank k rows/size*size)).order rows) := by
  obtain ⟨page,hpage,hg⟩ := mem_flatten.mp hg
  obtain ⟨-,i,rfl⟩ := of_mem_served hpage
  rw [zero_add] at hg
  obtain ⟨rfl,hxs⟩ := mem_pageGroups_of_uncut hr hsize huncut _ hg
  exact hxs

theorem whole_iff (hr : Injective rank) (hsize : 0 < size)
    (arrs : ℕ → Arrangement fun p q : κ × α => rank p.1 ≤ rank q.1) :
    Whole (allPages arrs size rows).flatten rows ↔ Uncut rank size rows := by
  constructor
  · intro h p hp
    obtain ⟨xs,hxs,hlength⟩ := exists_start hr hsize arrs hp
    have hfull := (h.full _ _ hxs).length_eq
    have := mod_lt (below rank p.1 rows) hsize
    omega
  · intro h
    refine ⟨?_,?_,?_⟩
    · have honce : ((served (fun offset => pageGroups (arrs offset) size rows offset) size (rows.length+1)
          (0*size)).flatten.map fst).Nodup :=
        served_keys_nodup (fun o => group_keys_nodup _) (fun i j k hi hj => ?_) 0
      · rwa [zero_mul] at honce
      · obtain ⟨⟨_,xs⟩,hxs,rfl⟩ := mem_map.mp hi
        obtain ⟨⟨_,ys⟩,hys,hk⟩ := mem_map.mp hj
        obtain rfl : _ = _ := hk
        exact (mem_pageGroups_of_uncut hr hsize h _ hxs).1.trans (mem_pageGroups_of_uncut hr hsize h _ hys).1.symm
    · intro k xs hg
      rw [mem_allPages_of_uncut hr hsize h hg]
      exact members_perm ((arrs _).perm rows)
    · intro p hp
      obtain ⟨xs,hxs,-⟩ := exists_start hr hsize arrs hp
      exact mem_map_of_mem hxs

theorem mem_allPages_iff (hr : Injective rank) (hsize : 0 < size) (huncut : Uncut rank size rows)
    (arr : Arrangement fun p q : κ × α => rank p.1 ≤ rank q.1) :
    (k,xs) ∈ (allPages (fun _ => arr) size rows).flatten ↔ (k,xs) ∈ group (arr.order rows) := by
  rw [mem_group]
  constructor
  · intro hg
    have hxs := mem_allPages_of_uncut hr hsize huncut hg
    refine ⟨hxs,?_⟩
    obtain ⟨page,hpage,hg⟩ := mem_flatten.mp hg
    obtain ⟨-,i,rfl⟩ := of_mem_served hpage
    exact ((mem_pageGroups hr _ _).mp hg).2
  · rintro ⟨rfl,hne⟩
    obtain ⟨p,hp,rfl⟩ := exists_of_members_ne_nil hne
    obtain ⟨xs,hxs,-⟩ := exists_start hr hsize (fun _ => arr) ((arr.perm rows).subset hp)
    rwa [mem_allPages_of_uncut hr hsize huncut hxs] at hxs

end Ordered

end LedgerForge.Grouping

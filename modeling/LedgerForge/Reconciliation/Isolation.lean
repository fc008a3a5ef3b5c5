import LedgerForge.Reconciliation.Datasource

/-! # Uploads that share a cache

Rows are recorded under upload ids and pages are read for them, in any order and through a cache that may lose entries.
The id of an upload is not known before its rows are recorded.
-/

namespace LedgerForge.Reconciliation

open Grouping List Cache CacheEntry

/-- A read of one page. -/
inductive Request
  | page (uploadID : String) (batchSize : ℤ) (offset : ℕ)
  | groups (uploadID groupCriteria : String) (batchSize : ℤ) (offset : ℕ)

namespace Request

def uploadID : Request → String
  | .page u _ _ => u
  | .groups u _ _ _ => u

def key : Request → String
  | .page _ b o => externalPageKey b o
  | .groups u c b o => groupedExternalKey u c b o

end Request

inductive Event (db : Database)
  | record (tx : ExternalTransaction) (uploadID : String)
  | fetch (request : Request) (plan : Plan db)
  | drop (key : String)

variable {db : Database} {d : Datasource} {h pre post : List (Event db)} {e : Event db} {u v : String} {b : ℤ} {o : ℕ}
  {rows rows' : List ExternalRow}

def step (d : Datasource) : Event db → Datasource
  | .record tx u =>
    match recordExternalTransaction d tx u with
    | .ok d => d
    | .error _ => d
  | .fetch (.page u b o) plan => (getExternalTransactionsPaginated plan d u b o).2
  | .fetch (.groups u c b o) plan => (fetchAndGroupExternalTransactions plan d u c b o).2
  | .drop key => { d with cache := d.cache.drop key }

def run (h : List (Event db)) : Datasource := h.foldl step .empty

theorem run_concat (h : List (Event db)) (e : Event db) : run (h ++ [e]) = step (run h) e := by
  rw [run,foldl_append]
  rfl

/-- The list is a page of the upload's rows in some order that the query may return. -/
def IsPage (rows : List ExternalRow) (u : String) (b : ℤ) (o : ℕ) (l : List ExternalTransaction) : Prop :=
  ∃ byDate, externalTransactionsPage byDate rows u b o = .ok l

def IsGroups (db : Database) (rows : List ExternalRow) (u c : String) (b : ℤ) (o : ℕ) (g : List (String × List Transaction)) :
    Prop :=
  ∃ key, ∃ byKey : ByKey db, groupedExternalTransactionsQuery db c = some key ∧
    groupedExternalPage byKey rows u key b o = .ok g

def Request.Answers (db : Database) (rows : List ExternalRow) : Request → CacheEntry → Prop
  | .page u b o, .page l => l ≠ [] ∧ IsPage rows u b o l
  | .groups u c b o, .groups g => g ≠ [] ∧ IsGroups db rows u c b o g
  | _, _ => False

variable {l : List ExternalTransaction} {entry : CacheEntry}

theorem isPage_congr (hrows : uploadRows rows u = uploadRows rows' u) :
    IsPage rows u b o l ↔ IsPage rows' u b o l := by
  simp only [IsPage,externalTransactionsPage,hrows]

theorem isGroups_congr (hrows : uploadRows rows u = uploadRows rows' u) {c : String} {g : List (String × List Transaction)} :
    IsGroups db rows u c b o g ↔ IsGroups db rows' u c b o g := by
  simp only [IsGroups,groupedExternalPage,hrows]

theorem Request.Answers.congr {r : Request} (ha : r.Answers db rows entry)
    (hrows : uploadRows rows r.uploadID = uploadRows rows' r.uploadID) : r.Answers db rows' entry := by
  cases r <;> cases entry
  · exact ⟨ha.1,(isPage_congr hrows).mp ha.2⟩
  · exact ha
  · exact ha
  · exact ⟨ha.1,(isGroups_congr hrows).mp ha.2⟩

theorem IsPage.ne_nil_iff (hl : IsPage rows u b o l) :
    l ≠ [] ↔ 0 < b ∧ o < (uploadRows rows u).length := by
  obtain ⟨byDate,hl⟩ := hl
  unfold externalTransactionsPage at hl
  split at hl
  · cases hl
  cases hl
  rw [ne_eq,map_eq_nil_iff,Paging.page,take_eq_nil_iff,drop_eq_nil_iff,
    (byDate.perm (uploadRows rows u)).length_eq]
  omega

theorem IsPage.mem (hl : IsPage rows u b o l) {tx : ExternalTransaction} (htx : tx ∈ l) :
    (⟨tx,u⟩ : ExternalRow) ∈ rows := by
  obtain ⟨byDate,hl⟩ := hl
  unfold externalTransactionsPage at hl
  split at hl
  · cases hl
  cases hl
  obtain ⟨r,hr,rfl⟩ := mem_map.mp htx
  have hmem := (byDate.perm _).subset (mem_of_mem_drop (mem_of_mem_take hr))
  obtain ⟨hrows,hu⟩ := mem_filter.mp hmem
  obtain rfl := of_decide_eq_true hu
  exact hrows

theorem recorded_cases (db : Database) (d : Datasource) (tx : ExternalTransaction) (u : String) :
    (tx.id ∈ d.external.map (fun r => r.id) ∧ step d (.record tx u : Event db) = d) ∨
      (tx.id ∉ d.external.map (fun r => r.id) ∧
        step d (.record tx u : Event db) = { d with external := d.external ++ [⟨tx,u⟩] }) := by
  by_cases hid : tx.id ∈ d.external.map fun r => r.id
  · exact .inl ⟨hid,by simp only [step,recordExternalTransaction,if_pos hid]⟩
  · exact .inr ⟨hid,by simp only [step,recordExternalTransaction,if_neg hid]⟩

theorem step_fetch_external (d : Datasource) (r : Request) (plan : Plan db) :
    (step d (.fetch r plan)).external = d.external := by
  cases r with
  | page u b o => rfl
  | groups u c b o =>
    simp only [step,fetchAndGroupExternalTransactions]
    cases groupedExternalTransactionsQuery db c <;> rfl

theorem uploadRows_step (hrecord : ∀ tx, e ≠ .record tx u) :
    uploadRows (step d e).external u = uploadRows d.external u := by
  cases e with
  | record tx v =>
    rcases recorded_cases db d tx v with ⟨-,hstep⟩ | ⟨-,hstep⟩
    · rw [hstep]
    · have hv : v ≠ u := fun hvu => hrecord tx (by rw [hvu])
      simp [hstep,uploadRows,hv]
  | fetch r plan => rw [step_fetch_external]
  | drop key => rfl

theorem entry_step {k : String} (he : (step d e).cache k = some entry) :
    (d.cache k = some entry ∧ e ≠ .drop k) ∨
      ∃ r plan, e = .fetch r plan ∧ r.key = k ∧ r.Answers db d.external entry := by
  cases e with
  | record tx v =>
    refine .inl ⟨?_,nofun⟩
    rcases recorded_cases db d tx v with ⟨-,hstep⟩ | ⟨-,hstep⟩ <;> rwa [hstep] at he
  | fetch r plan =>
    cases r with
    | page u b o =>
      rcases of_entry he with hold | ⟨rfl,l,hl,husable,rfl⟩
      · exact .inl ⟨hold,nofun⟩
      · exact .inr ⟨_,plan,rfl,rfl,by simpa [pageKind] using husable,plan.byDate,hl⟩
    | groups u c b o =>
      simp only [step,fetchAndGroupExternalTransactions] at he
      cases hkey : groupedExternalTransactionsQuery db c with
      | none =>
        simp only [hkey] at he
        exact .inl ⟨he,nofun⟩
      | some key =>
        simp only [hkey] at he
        rcases of_entry he with hold | ⟨rfl,g,hg,husable,rfl⟩
        · exact .inl ⟨hold,nofun⟩
        · exact .inr ⟨_,plan,rfl,rfl,by simpa [groupsKind] using husable,key,plan.byKey,hkey,hg⟩
  | drop k' =>
    by_cases hk : k = k'
    · subst hk
      simp [step] at he
    · simp only [step,drop_of_ne hk] at he
      exact .inl ⟨he,fun hdrop => hk (Event.drop.inj hdrop).symm⟩

/-- An upload gets no more rows once a page of it has been asked for. -/
def Announced (h : List (Event db)) : Prop :=
  ∀ pre tx u post, h = pre ++ .record tx u :: post → ∀ r plan, .fetch r plan ∈ pre → r.uploadID ≠ u

theorem Announced.of_append (ha : Announced (pre ++ post)) : Announced pre := by
  intro p tx u q hsplit
  exact ha p tx u (q ++ post) (by simp [hsplit])

theorem entry_run (ha : Announced h) {k : String} (he : (run h).cache k = some entry) :
    ∃ pre r plan post, h = pre ++ .fetch r plan :: post ∧ r.key = k ∧ .drop k ∉ post ∧
      r.Answers db (run h).external entry := by
  induction h using List.reverseRecOn generalizing k entry with
  | nil => cases he
  | append_singleton h e ih =>
    rw [run_concat] at he ⊢
    rcases entry_step he with ⟨hold,hdrop⟩ | ⟨r,plan,rfl,hk,hanswers⟩
    · obtain ⟨pre,r,plan,post,rfl,hk,hkept,hanswers⟩ := ih ha.of_append hold
      refine ⟨pre,r,plan,post ++ [e],by simp,hk,by simp [hkept,hdrop.symm],hanswers.congr (uploadRows_step ?_).symm⟩
      rintro tx rfl
      exact ha _ tx _ [] rfl r plan (by simp) rfl
    · refine ⟨h,r,plan,[],rfl,hk,not_mem_nil,hanswers.congr ?_⟩
      rw [step_fetch_external]

theorem external_step (d : Datasource) (e : Event db) : d.external <+: (step d e).external := by
  cases e with
  | record tx v =>
    rcases recorded_cases db d tx v with ⟨-,hstep⟩ | ⟨-,hstep⟩
    · rw [hstep]
    · rw [hstep]
      exact prefix_append ..
  | fetch r plan => rw [step_fetch_external]
  | drop key => exact prefix_rfl

theorem external_run (pre post : List (Event db)) : (run pre).external <+: (run (pre ++ post)).external := by
  induction post using List.reverseRecOn with
  | nil => rw [append_nil]
  | append_singleton post e ih =>
    rw [← append_assoc,run_concat]
    exact ih.trans (external_step _ e)

theorem ids_nodup (h : List (Event db)) : ((run h).external.map fun r => r.id).Nodup := by
  induction h using List.reverseRecOn with
  | nil => exact nodup_nil
  | append_singleton h e ih =>
    rw [run_concat]
    cases e with
    | record tx v =>
      rcases recorded_cases db (run h) tx v with ⟨-,hstep⟩ | ⟨hid,hstep⟩
      · rwa [hstep]
      · rw [hstep,map_append]
        exact nodup_append_comm.mp (nodup_cons.mpr ⟨hid,ih⟩)
    | fetch r plan => rwa [step_fetch_external]
    | drop key => exact ih

theorem hit_run (hhit : hit pageKind (run pre).cache (externalPageKey b o) = some l)
    (hkept : .drop (externalPageKey b o) ∉ post) :
    hit pageKind (run (pre ++ post)).cache (externalPageKey b o) = some l := by
  induction post using List.reverseRecOn with
  | nil => rwa [append_nil]
  | append_singleton post e ih =>
    rw [mem_append,not_or,mem_singleton] at hkept
    have hhit := ih hkept.1
    rw [← append_assoc,run_concat]
    cases e with
    | record tx v =>
      rcases recorded_cases db (run (pre ++ post)) tx v with ⟨-,hstep⟩ | ⟨-,hstep⟩ <;> rwa [hstep]
    | fetch r plan =>
      cases r with
      | page u b' o' => exact hit_kept hhit fun hk => ⟨l,hk ▸ hhit⟩
      | groups u c b' o' =>
        simp only [step,fetchAndGroupExternalTransactions]
        cases groupedExternalTransactionsQuery db c with
        | none => exact hhit
        | some key => exact hit_kept hhit fun hk => absurd hk.symm (externalPageKey_ne_grouped _ _ _ _ _ _)
    | drop k =>
      have hk : externalPageKey b o ≠ k := fun h => hkept.2 (by rw [h])
      rw [← hhit]
      exact hit_congr (drop_of_ne hk)

theorem uploadRows_run (hnone : ∀ tx, .record tx u ∉ post) :
    uploadRows (run (pre ++ post)).external u = uploadRows (run pre).external u := by
  induction post using List.reverseRecOn with
  | nil => rw [append_nil]
  | append_singleton post e ih =>
    rw [← append_assoc,run_concat,uploadRows_step (fun tx he => hnone tx (by simp [he]))]
    exact ih fun tx hmem => hnone tx (mem_append_left _ hmem)

variable {plan : Plan db}

theorem Announced.uploadRows_eq {r : Request} (ha : Announced (pre ++ .fetch r plan :: post)) :
    uploadRows (run (pre ++ .fetch r plan :: post)).external r.uploadID = uploadRows (run pre).external r.uploadID := by
  refine uploadRows_run fun tx hmem => ?_
  rcases mem_cons.mp hmem with heq | hmem
  · cases heq
  · obtain ⟨p,q,rfl⟩ := append_of_mem hmem
    exact ha (pre ++ .fetch r plan :: p) tx _ q (by simp) r plan (by simp) rfl

def recorded (h : List (Event db)) : List ExternalRow :=
  h.filterMap fun
    | .record tx u => some ⟨tx,u⟩
    | _ => none

theorem external_eq_recorded (hn : ((recorded h).map fun r => r.id).Nodup) : (run h).external = recorded h := by
  induction h using List.reverseRecOn with
  | nil => rfl
  | append_singleton h e ih =>
    rw [recorded,filterMap_append,map_append] at hn
    have hh := ih (nodup_append.mp hn).1
    rw [run_concat,recorded,filterMap_append]
    cases e with
    | record tx v =>
      rcases recorded_cases db (run h) tx v with ⟨hid,-⟩ | ⟨-,hstep⟩
      · rw [hh] at hid
        exact absurd rfl ((nodup_append.mp hn).2.2 _ hid _ mem_cons_self)
      · rw [hstep,hh]
        rfl
    | fetch r plan =>
      rw [step_fetch_external,hh]
      exact (append_nil _).symm
    | drop key => exact hh.trans (append_nil _).symm

/-- The cache has no page of another upload for the same batch size and offset. -/
def Unshared (pre : List (Event db)) (u : String) (b : ℤ) (o : ℕ) : Prop :=
  ∀ before v plan after, pre = before ++ .fetch (.page v b o) plan :: after → .drop (externalPageKey b o) ∉ after →
    0 < b → o < (uploadRows (run before).external v).length → v = u

theorem isPage_of_unshared (ha : Announced pre) (hu : Unshared pre u b o)
    (hl : (getExternalTransactionsPaginated plan (run pre) u b o).1 = .ok l) : IsPage (run pre).external u b o l := by
  rcases of_readThrough hl with hhit | hquery
  · obtain ⟨entry,hentry,hdecode,-⟩ := hit_eq_some.mp hhit
    obtain ⟨before,r,plan',after,rfl,hkey,hkept,hanswers⟩ := entry_run ha hentry
    cases r with
    | groups v c b' o' => exact absurd hkey.symm (externalPageKey_ne_grouped _ _ _ _ _ _)
    | page v b' o' =>
      obtain ⟨rfl,rfl⟩ := externalPageKey_injective hkey
      cases entry with
      | groups g => exact absurd hanswers id
      | page l' =>
        cases hdecode
        obtain ⟨hb,ho⟩ := (hanswers.2.ne_nil_iff).mp hanswers.1
        have hrows : uploadRows (run (before ++ .fetch (.page v b' o') plan' :: after)).external v =
          uploadRows (run before).external v := ha.uploadRows_eq
        rw [hrows] at ho
        obtain rfl := hu before v plan' after rfl hkept hb ho
        exact hanswers.2
  · exact ⟨plan.byDate,hquery⟩

theorem isGroups_of_fetch {c : String} {g : List (String × List Transaction)} (ha : Announced pre)
    (hg : (fetchAndGroupExternalTransactions plan (run pre) u c b o).1 = .ok g) :
    IsGroups db (run pre).external u c b o g := by
  unfold fetchAndGroupExternalTransactions at hg
  cases hcolumn : groupedExternalTransactionsQuery db c with
  | none =>
    simp only [hcolumn] at hg
    cases hg
  | some column =>
    simp only [hcolumn] at hg
    rcases of_readThrough hg with hhit | hquery
    · obtain ⟨entry,hentry,hdecode,-⟩ := hit_eq_some.mp hhit
      obtain ⟨before,r,plan',after,rfl,hkey,-,hanswers⟩ := entry_run ha hentry
      cases r with
      | page v b' o' => exact absurd hkey (externalPageKey_ne_grouped _ _ _ _ _ _)
      | groups v c' b' o' =>
        cases entry with
        | page l => exact absurd hanswers id
        | groups g' =>
          cases hdecode
          obtain ⟨column',byKey,hcolumn',hpage⟩ := hanswers.2
          obtain ⟨rfl,rfl,rfl,rfl⟩ := groupedExternalKey_injective (colon_notMem_criteria hcolumn')
            (colon_notMem_criteria hcolumn) hkey
          exact ⟨column',byKey,hcolumn',hpage⟩
    · exact ⟨column,plan.byKey,hcolumn,hquery⟩

theorem page_of_shared {plan' : Plan db}
    (hl : (getExternalTransactionsPaginated plan' (run pre) v b o).1 = .ok l) (hne : l ≠ [])
    (hkept : .drop (externalPageKey b o) ∉ post) :
    (getExternalTransactionsPaginated plan (run (pre ++ .fetch (.page v b o) plan' :: post)) u b o).1 = .ok l := by
  have hhit : hit pageKind (run (pre ++ [.fetch (.page v b o) plan'])).cache (externalPageKey b o) = some l := by
    rw [run_concat]
    exact hit_readThrough hl (by simpa [pageKind] using hne)
  have hlater := hit_run hhit hkept
  rw [append_assoc] at hlater
  exact congrArg Prod.fst (readThrough_hit hlater)

theorem exists_page (hb : 0 < b) (plan : Plan db) (d : Datasource) (u : String) (o : ℕ) :
    ∃ l, (getExternalTransactionsPaginated plan d u b o).1 = .ok l := by
  cases hhit : hit pageKind d.cache (externalPageKey b o) with
  | some l => exact ⟨l,congrArg Prod.fst (readThrough_hit hhit)⟩
  | none =>
    simp only [getExternalTransactionsPaginated,readThrough,hhit,externalTransactionsPage,if_neg hb.not_gt]
    exact ⟨_,rfl⟩

/-- Every page that is read for an upload is one of its own exactly when no other upload was read with the same batch
size and offset while the cache kept the page. Groups always are. The pages of an upload depend on the rows recorded
under its id only. -/
theorem upload_isolation (h : List (Event db)) (ha : Announced h) :
    ((∀ pre u b o plan post, h = pre ++ .fetch (.page u b o) plan :: post →
        ∀ l, (getExternalTransactionsPaginated plan (run pre) u b o).1 = .ok l → IsPage (run pre).external u b o l) ↔
      ∀ pre u b o plan post, h = pre ++ .fetch (.page u b o) plan :: post → Unshared pre u b o) ∧
    (∀ pre u c b o plan post, h = pre ++ .fetch (.groups u c b o) plan :: post →
      ∀ g, (fetchAndGroupExternalTransactions plan (run pre) u c b o).1 = .ok g → IsGroups db (run pre).external u c b o g) ∧
    ∀ (h' : List (Event db)) (u : String), ((recorded h).map fun r => r.id).Nodup → ((recorded h').map fun r => r.id).Nodup →
      uploadRows (recorded h) u = uploadRows (recorded h') u → ∀ b o,
        (∀ l, IsPage (run h).external u b o l ↔ IsPage (run h').external u b o l) ∧
        ∀ c g, IsGroups db (run h).external u c b o g ↔ IsGroups db (run h').external u c b o g := by
  refine ⟨⟨?_,?_⟩,?_,?_⟩
  · rintro hright pre u b o plan post rfl before v plan' after rfl hkept hb ho
    obtain ⟨l,hl⟩ := exists_page hb plan' (run before) v o
    have hown := hright before v b o plan' (after ++ .fetch (.page u b o) plan :: post) (by simp) l hl
    have hne : l ≠ [] := hown.ne_nil_iff.mpr ⟨hb,ho⟩
    have hother := hright _ u b o plan post rfl l (page_of_shared hl hne hkept)
    obtain ⟨tx,htx⟩ := exists_mem_of_ne_nil l hne
    exact congrArg ExternalRow.uploadID (inj_on_of_nodup_map (ids_nodup _)
      ((external_run before _).subset (hown.mem htx)) (hother.mem htx) rfl)
  · rintro hunshared pre u b o plan post rfl l hl
    exact isPage_of_unshared ha.of_append (hunshared pre u b o plan post rfl) hl
  · rintro pre u c b o plan post rfl g hg
    exact isGroups_of_fetch ha.of_append hg
  · intro h' u hn hn' hrows b o
    rw [← external_eq_recorded hn,← external_eq_recorded hn'] at hrows
    exact ⟨fun l => isPage_congr hrows,fun c g => isGroups_congr hrows⟩

def externalRow (id : String) (amount date : ℤ) : ExternalTransaction :=
  ⟨id,Float64.ofInt amount,"ref " ++ id,"USD","",date,"bank"⟩

/-- A single upload only meets its own pages. -/
theorem single_upload_isolated :
    IsPage (run ([.record (externalRow "x" 5 1) "a"] : List (Event .plain))).external "a" 10 0 [externalRow "x" 5 1] := by
  have ha : Announced [.record (externalRow "x" 5 1) "a",.fetch (.page "a" 10 0) (.stable .plain)] := by
    intro pre tx u post hsplit r plan hmem
    rcases pre with _ | ⟨_,_ | ⟨_,_ | _⟩⟩ <;> simp at hsplit hmem
  refine (upload_isolation _ ha).1.mpr ?_ _ "a" 10 0 (.stable .plain) [] rfl _ (by decide +kernel)
  rintro pre u b o plan post hsplit before v plan' after rfl
  rcases before with _ | ⟨_,_ | ⟨_,_ | _⟩⟩ <;> simp at hsplit

/-- The second upload is read with the batch size of the first one and gets its page. -/
theorem next_upload_gets_first_page : ∃ h : List (Event .plain), Announced h ∧
    (getExternalTransactionsPaginated (.stable .plain) (run h) "b" 10 0).1 = .ok [externalRow "x" 5 1] ∧
    uploadRows (run h).external "b" = [⟨externalRow "y" 7 2,"b"⟩] ∧
    ¬ IsPage (run h).external "b" 10 0 [externalRow "x" 5 1] := by
  refine ⟨[.record (externalRow "x" 5 1) "a",.record (externalRow "y" 7 2) "b",.fetch (.page "a" 10 0) (.stable .plain)],
    ?_,by decide +kernel,by decide +kernel,fun hpage => ?_⟩
  · intro pre tx u post hsplit r plan hmem
    rcases pre with _ | ⟨_,_ | ⟨_,_ | ⟨_,_ | _⟩⟩⟩ <;> simp at hsplit hmem
    all_goals aesop
  · exact absurd (hpage.mem mem_cons_self) (by decide +kernel)

end LedgerForge.Reconciliation

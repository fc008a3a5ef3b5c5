import LedgerForge.Journal.Bounds

/-! # Concurrent writers

Any number of open database transactions insert rows at the same time. A transaction sees the committed
rows and its own; the trigger locks the parent row it sees until the transaction ends, and the unique
indexes make it wait for rows of other open transactions. An exception aborts the transaction.
-/

namespace LedgerForge.Writers

open List

/-- One open database transaction. -/
structure Writer where
  rows : List Row
  claims : List RefundClaim
  locks : List String
deriving DecidableEq

def Writer.idle : Writer := ⟨[],[],[]⟩

/-- The committed rows and the open transactions. -/
structure Storage where
  rows : List Row
  claims : List RefundClaim
  writers : List Writer
deriving DecidableEq

inductive Action
  | begin
  | insert (writer : ℕ) (row : Row)
  | commit (writer : ℕ)
  | abort (writer : ℕ)
deriving DecidableEq

namespace Storage

def empty : Storage := ⟨[],[],[]⟩

def view (s : Storage) (w : Writer) : List Row := s.rows ++ w.rows

def all (s : Storage) : List Row := s.rows ++ s.writers.flatMap Writer.rows

def locks (s : Storage) (w : Writer) (r : Row) : Bool :=
  r.parentTransaction ≠ "" && (Keyed.find Row.transactionID (s.view w) r.parentTransaction).isSome

/-- Another transaction holds the lock of the parent row or is about to store the same identifier or reference. -/
def waits (s : Storage) (i : ℕ) (w : Writer) (r : Row) : Bool :=
  (s.writers.eraseIdx i).any fun o => (s.locks w r && r.parentTransaction ∈ o.locks) ||
    o.rows.any fun x => x.transactionID = r.transactionID || x.reference = r.reference

def insertRow (s : Storage) (w : Writer) (r : Row) : Except String Writer :=
  match claimTransactionLifecycle (s.view w) (s.claims ++ w.claims) r with
  | .error e => .error e
  | .ok claims =>
    if (s.view w).any fun x => x.transactionID = r.transactionID then
      .error "duplicate key value violates unique constraint \"transactions_transaction_id_key\""
    else if (s.view w).any fun x => x.reference = r.reference then
      .error "duplicate key value violates unique constraint \"idx_transactions_reference_unique\""
    else .ok ⟨w.rows ++ [r],claims.drop s.claims.length,if s.locks w r then r.parentTransaction :: w.locks else w.locks⟩

def step (s : Storage) : Action → Storage
  | .begin => { s with writers := s.writers ++ [.idle] }
  | .insert i r => match s.writers[i]? with
    | none => s
    | some w =>
      if s.waits i w r then s
      else match s.insertRow w r with
        | .error _ => { s with writers := s.writers.set i .idle }
        | .ok w' => { s with writers := s.writers.set i w' }
  | .commit i => match s.writers[i]? with
    | none => s
    | some w => ⟨s.rows ++ w.rows,s.claims ++ w.claims,s.writers.set i .idle⟩
  | .abort i => { s with writers := s.writers.set i .idle }

def run (actions : List Action) : Storage := actions.foldl step empty

def Open (s : Storage) (i : ℕ) (w : Writer) : Prop := s.writers[i]? = some w

/-- The parent of a lifecycle is inserted before any row that refers to it: not after such a row, and not
while another transaction that stores it is still open. -/
def Ordered (s : Storage) : Action → Prop
  | .insert i r => r.Introduced s.all ∧
      ∀ w ∈ s.writers.eraseIdx i, ∀ x ∈ w.rows, x.IsLifecycleParent → r.parentTransaction ≠ x.transactionID
  | _ => True

instance decidableOrdered (s : Storage) : (a : Action) → Decidable (s.Ordered a)
  | .insert _ _ => inferInstanceAs (Decidable (_ ∧ _))
  | .begin => .isTrue trivial
  | .commit _ => .isTrue trivial
  | .abort _ => .isTrue trivial

/-- Every step of the run is ordered. -/
def OrderedRun : Storage → List Action → Prop
  | _, [] => True
  | s, a :: rest => s.Ordered a ∧ OrderedRun (s.step a) rest

instance decidableOrderedRun (s : Storage) : (actions : List Action) → Decidable (OrderedRun s actions)
  | [] => .isTrue trivial
  | a :: rest => @instDecidableAnd _ _ _ (decidableOrderedRun (s.step a) rest)

/-- The rows a transaction sees are bounded, and it has locked the committed parents of its own rows. -/
structure Own (rows : List Row) (w : Writer) : Prop where
  bounded : Bounded (rows ++ w.rows)
  ids : ((rows ++ w.rows).map Row.transactionID).Nodup
  locked : ∀ r ∈ w.rows, ∀ p ∈ rows, p.IsLifecycleParent → r.parentTransaction = p.transactionID → p.transactionID ∈ w.locks

/-- Two open transactions share no identifier, no lock and no parent. -/
structure Separate (w w' : Writer) : Prop where
  apart : ∀ x ∈ w.rows, ∀ y ∈ w'.rows, x.transactionID ≠ y.transactionID
  exclusive : ∀ k ∈ w.locks, k ∉ w'.locks
  foreign : ∀ r ∈ w.rows, ∀ x ∈ w'.rows, x.IsLifecycleParent → r.parentTransaction ≠ x.transactionID

/-- What holds in every state of an ordered run. -/
structure Coherent (s : Storage) : Prop where
  committed : Own s.rows .idle
  own : ∀ i w, s.Open i w → Own s.rows w
  separate : ∀ i j w w', i ≠ j → s.Open i w → s.Open j w' → Separate w w'

variable {s : Storage}

theorem mem_all {i : ℕ} {w : Writer} (hw : s.Open i w) {r : Row} (hr : r ∈ s.view w) : r ∈ s.all := by
  rcases mem_append.mp hr with hr | hr
  · exact mem_append_left _ hr
  · exact mem_append_right _ (mem_flatMap.mpr ⟨w,mem_of_getElem? hw,hr⟩)

theorem open_set {rows : List Row} {claims : List RefundClaim} {i j : ℕ} {w x : Writer}
    (h : Open ⟨rows,claims,s.writers.set i w⟩ j x) : j = i ∧ x = w ∨ j ≠ i ∧ s.Open j x := by
  rw [Open,List.getElem?_set] at h
  split at h
  · rename_i he
    split at h
    · exact .inl ⟨he.symm,(Option.some.inj h).symm⟩
    · cases h
  · rename_i hne
    exact .inr ⟨fun he => hne he.symm,h⟩

theorem open_begin {j : ℕ} {x : Writer} (h : (s.step .begin).Open j x) : x = .idle ∨ s.Open j x := by
  rw [Open,step,List.getElem?_append] at h
  split at h
  · exact .inr h
  · exact .inl (mem_singleton.mp (mem_of_getElem? h))

section Steps

theorem separate_idle_left (w : Writer) : Separate .idle w :=
  ⟨fun _ h => absurd h not_mem_nil,fun _ h => absurd h not_mem_nil,fun _ h => absurd h not_mem_nil⟩

theorem separate_idle_right (w : Writer) : Separate w .idle :=
  ⟨fun _ _ _ h => absurd h not_mem_nil,fun _ _ => not_mem_nil,fun _ _ _ h => absurd h not_mem_nil⟩

theorem empty_coherent : empty.Coherent :=
  ⟨⟨.nil,nodup_nil,fun _ h => absurd h not_mem_nil⟩,fun i w h => (by cases h),
    fun i j w w' _ h => (by cases h)⟩

theorem Coherent.idle {s' : Storage} (h : s.Coherent) (hrows : s'.rows = s.rows)
    (hopen : ∀ j x, s'.Open j x → x = .idle ∨ s.Open j x) : s'.Coherent := by
  refine ⟨hrows ▸ h.committed,fun i w hw => ?_,fun i j w w' hij hw hw' => ?_⟩
  · rcases hopen i w hw with rfl | hold
    · exact hrows ▸ h.committed
    · exact hrows ▸ h.own i w hold
  · rcases hopen i w hw with rfl | hold
    · exact separate_idle_left w'
    rcases hopen j w' hw' with rfl | hold'
    · exact separate_idle_right w
    · exact h.separate i j w w' hij hold hold'

variable {w w' : Writer} {i : ℕ} {r : Row}

/-- A committed parent is locked by the only transaction that has children of it, and nobody refers to
uncommitted rows of others. -/
theorem Own.commit {rows : List Row} (h : Own rows w) (h' : Own rows w') (hsep : Separate w w')
    (hsep' : Separate w' w) : Own (rows ++ w.rows) w' := by
  refine ⟨h.bounded.merge h'.bounded fun p hp hparent => ?_,?_,fun r hr p hp hparent he => ?_⟩
  · rcases mem_append.mp hp with hp | hp
    · rcases mem_append.mp hp with hbase | hown
      · by_cases hnone : kids w.rows p.transactionID = []
        · exact .inr ⟨mem_append_left _ hbase,hnone⟩
        refine .inl ⟨hp,kids_eq_nil.mpr fun x hx hxp => ?_⟩
        obtain ⟨r,hr⟩ := exists_mem_of_ne_nil _ hnone
        obtain ⟨hr,hrp⟩ := mem_kids.mp hr
        exact hsep.exclusive _ (h.locked r hr p hbase hparent hrp) (h'.locked x hx p hbase hparent hxp)
      · exact .inl ⟨hp,kids_eq_nil.mpr fun x hx => hsep'.foreign x hx p hown hparent⟩
    · exact .inr ⟨mem_append_right _ hp,kids_eq_nil.mpr fun x hx => hsep.foreign x hx p hp hparent⟩
  · have hnodup := h'.ids
    rw [map_append,nodup_append] at hnodup
    rw [map_append,nodup_append]
    refine ⟨h.ids,hnodup.2.1,fun a ha b hb hab => ?_⟩
    obtain ⟨x,hx,rfl⟩ := mem_map.mp ha
    obtain ⟨y,hy,rfl⟩ := mem_map.mp hb
    rcases mem_append.mp hx with hx | hx
    · exact hnodup.2.2 _ (mem_map_of_mem hx) _ (mem_map_of_mem hy) hab
    · exact hsep.apart x hx y hy hab
  · rcases mem_append.mp hp with hp | hp
    · exact h'.locked r hr p hp hparent he
    · exact absurd he (hsep'.foreign r hr p hp hparent)

theorem Coherent.commit (h : s.Coherent) : (s.step (.commit i)).Coherent := by
  rw [step]
  split
  · exact h
  rename_i w hw
  have hown := h.own i w hw
  have hcommitted : Own (s.rows ++ w.rows) .idle :=
    ⟨(append_nil _).symm ▸ hown.bounded,(append_nil _).symm ▸ hown.ids,fun _ hr => absurd hr not_mem_nil⟩
  refine ⟨hcommitted,fun j x hx => ?_,fun j k x y hjk hx hy => ?_⟩
  · rcases open_set hx with ⟨-,rfl⟩ | ⟨hne,hold⟩
    · exact hcommitted
    · exact hown.commit (h.own j x hold) (h.separate i j w x hne.symm hw hold) (h.separate j i x w hne hold hw)
  · rcases open_set hx with ⟨-,rfl⟩ | ⟨-,hold⟩
    · exact separate_idle_left y
    rcases open_set hy with ⟨-,rfl⟩ | ⟨-,hold'⟩
    · exact separate_idle_right x
    · exact h.separate j k x y hjk hold hold'

theorem insertRow_ok (h : s.insertRow w r = .ok w') : ∃ claims,
    Checked (s.view w) (s.claims ++ w.claims) r claims ∧ w'.rows = w.rows ++ [r] ∧
      w'.locks = if s.locks w r then r.parentTransaction :: w.locks else w.locks := by
  rw [insertRow] at h
  split at h
  · cases h
  rename_i claims hclaims
  obtain ⟨hid,h⟩ := ok_of_guard h
  obtain ⟨href,h⟩ := ok_of_guard h
  cases h
  refine ⟨claims,⟨hclaims,fun x hx he => hid ?_,fun x hx he => href ?_⟩,rfl,rfl⟩
  all_goals exact any_eq_true.mpr ⟨x,hx,decide_eq_true he⟩

theorem waits_false {j : ℕ} {o : Writer} (h : s.waits i w r = false) (hne : j ≠ i) (ho : s.Open j o) :
    (s.locks w r = true → r.parentTransaction ∉ o.locks) ∧ ∀ x ∈ o.rows, x.transactionID ≠ r.transactionID := by
  have hmem : o ∈ s.writers.eraseIdx i := mem_eraseIdx_iff_getElem?.mpr ⟨j,hne,ho⟩
  have hfree := any_eq_false.mp h o hmem
  simp only [Bool.or_eq_true,Bool.and_eq_true,decide_eq_true_eq,any_eq_true,not_or,not_and,not_exists] at hfree
  exact ⟨hfree.1,fun x hx => (hfree.2 x hx).1⟩

theorem locks_of_committed {p : Row} (hw : Own s.rows w) (hp : p ∈ s.rows) (hparent : p.IsLifecycleParent)
    (he : r.parentTransaction = p.transactionID) : s.locks w r = true := by
  have hmem : p ∈ s.view w := mem_append_left _ hp
  have hfind : Keyed.find Row.transactionID (s.view w) p.transactionID = some p := Keyed.find_of_mem hw.ids hmem
  rw [locks,he,hfind]
  simpa using hw.bounded.named p hmem hparent

theorem Own.insert (hopen : s.Open i w) (hw : Own s.rows w)
    (hi : r.Introduced s.all) (h : s.insertRow w r = .ok w') : Own s.rows w' := by
  obtain ⟨claims,hc,hrows,hlocks⟩ := insertRow_ok h
  have hview : s.rows ++ w'.rows = s.view w ++ [r] := by rw [hrows,view,append_assoc]
  have hintroduced : r.Introduced (s.view w) := ⟨hi.named,fun hp x hx => hi.first hp x (mem_all hopen hx),hi.amount⟩
  refine ⟨hview ▸ hw.bounded.append hw.ids hc hintroduced,?_,fun x hx p hp hparent he => ?_⟩
  · rw [hview,map_append,map_singleton,nodup_append_comm,singleton_append,nodup_cons]
    refine ⟨fun hmem => ?_,hw.ids⟩
    obtain ⟨x,hx,hid⟩ := mem_map.mp hmem
    exact hc.freshID x hx hid
  · rw [hrows] at hx
    rw [hlocks]
    rcases mem_append.mp hx with hx | hx
    · have hlock := hw.locked x hx p hp hparent he
      split
      · exact mem_cons_of_mem _ hlock
      · exact hlock
    · rw [mem_singleton.mp hx] at he
      rw [if_pos (locks_of_committed hw hp hparent he),he]
      exact mem_cons_self

section Separation

variable {o : Writer}

theorem Separate.insert_left (h : Separate w o) (hw : s.insertRow w r = .ok w')
    (hfree : (s.locks w r = true → r.parentTransaction ∉ o.locks) ∧ ∀ x ∈ o.rows, x.transactionID ≠ r.transactionID)
    (hforeign : ∀ x ∈ o.rows, x.IsLifecycleParent → r.parentTransaction ≠ x.transactionID) : Separate w' o := by
  obtain ⟨-,-,hrows,hlocks⟩ := insertRow_ok hw
  refine ⟨fun x hx y hy => ?_,fun k hk => ?_,fun x hx y hy => ?_⟩
  · rw [hrows] at hx
    rcases mem_append.mp hx with hx | hx
    · exact h.apart x hx y hy
    · exact mem_singleton.mp hx ▸ Ne.symm (hfree.2 y hy)
  · rw [hlocks] at hk
    split at hk
    · rename_i hl
      rcases mem_cons.mp hk with rfl | hk
      · exact hfree.1 hl
      · exact h.exclusive k hk
    · exact h.exclusive k hk
  · rw [hrows] at hx
    rcases mem_append.mp hx with hx | hx
    · exact h.foreign x hx y hy
    · exact mem_singleton.mp hx ▸ hforeign y hy

theorem Separate.insert_right (h : Separate o w) (hw : s.insertRow w r = .ok w')
    (hfree : (s.locks w r = true → r.parentTransaction ∉ o.locks) ∧ ∀ x ∈ o.rows, x.transactionID ≠ r.transactionID)
    (hfirst : r.IsLifecycleParent → ∀ x ∈ o.rows, x.parentTransaction ≠ r.transactionID) : Separate o w' := by
  obtain ⟨-,-,hrows,hlocks⟩ := insertRow_ok hw
  refine ⟨fun x hx y hy => ?_,fun k hk => ?_,fun x hx y hy hp => ?_⟩
  · rw [hrows] at hy
    rcases mem_append.mp hy with hy | hy
    · exact h.apart x hx y hy
    · exact mem_singleton.mp hy ▸ hfree.2 x hx
  · rw [hlocks]
    split
    · rename_i hl
      rw [mem_cons,not_or]
      exact ⟨fun he => hfree.1 hl (he ▸ hk),h.exclusive k hk⟩
    · exact h.exclusive k hk
  · rw [hrows] at hy
    rcases mem_append.mp hy with hy | hy
    · exact h.foreign x hx y hy hp
    · rw [mem_singleton.mp hy] at hp ⊢
      exact hfirst hp x hx

end Separation

theorem Coherent.insert (h : s.Coherent) (ho : s.Ordered (.insert i r)) :
    (s.step (.insert i r)).Coherent := by
  have hidle : Coherent ⟨s.rows,s.claims,s.writers.set i .idle⟩ := h.idle rfl fun j x hx =>
    (open_set hx).imp And.right And.right
  rw [step]
  split
  · exact h
  rename_i w hw
  split
  · exact h
  rename_i hwaits
  split
  · exact hidle
  rename_i w' hw'
  obtain ⟨hi,hforeign⟩ := ho
  have hfree := Bool.eq_false_of_not_eq_true hwaits
  refine ⟨h.committed,fun j x hx => ?_,fun j k x y hjk hx hy => ?_⟩
  · rcases open_set hx with ⟨-,rfl⟩ | ⟨-,hold⟩
    · exact Own.insert (s := s) hw (h.own i w hw) hi hw'
    · exact h.own j x hold
  · rcases open_set hx with ⟨rfl,rfl⟩ | ⟨hne,hold⟩
    · rcases open_set hy with ⟨rfl,-⟩ | ⟨hne,hold⟩
      · exact absurd rfl hjk
      · exact (h.separate _ k w y hjk hw hold).insert_left hw' (waits_false hfree hne hold)
          (hforeign y (mem_eraseIdx_iff_getElem?.mpr ⟨k,hne,hold⟩))
    · rcases open_set hy with ⟨rfl,rfl⟩ | ⟨-,hold'⟩
      · exact (h.separate j _ x w hjk hold hw).insert_right hw' (waits_false hfree hne hold) fun hp z hz =>
          hi.first hp z (mem_all hold (mem_append_right _ hz))
      · exact h.separate j k x y hjk hold hold'

end Steps

end Storage
end LedgerForge.Writers

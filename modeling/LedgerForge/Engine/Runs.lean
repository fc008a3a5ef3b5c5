import LedgerForge.Engine.Postings

/-! # Runs

One inversion of a step of the engine: it creates a balance, or it appends rows of the shape its operation
writes. Every reachable state is therefore sound.
-/

namespace LedgerForge.Engine

open VersionedStore Database List

/-- The rows an operation appends when it is accepted. -/
def Operation.Writes (e : Engine) (r : Row) : Operation → Prop
  | .createBalance _ _ => False
  | .post request group newID _ _ =>
    RequestRow request request.reference (linkOf group newID) newID (group.getD "") r
  | .postLeg request leg splitID legID _ _ => RequestRow request leg.reference "" legID splitID r
  | .work message _ => ∃ t i, e.queue[message]? = some t ∧ Message e.database.transactions t i ∧
      ChildRow e.database.transactions i r ∧ (r.status = .rejected → i.minor ≤ 0)
  | .workBatch _ _ _ => ∃ i, ChildRow e.database.transactions i r ∧ r.status ≠ .rejected
  | .reject message => ∃ t i, e.queue[message]? = some t ∧ Message e.database.transactions t i ∧
      ChildRow e.database.transactions i r ∧ r.status = .rejected
  | .recover id _ exhausted _ => ∃ i, i.transactionID = id ∧ ChildRow e.database.transactions i r ∧
      (r.status = .rejected → exhausted = true ∨ i.minor ≤ 0)
  | .commit id _ reference newID _ => SettlingRow e.database.transactions id newID reference r ∧ r.status = .applied ∧ r.queueAction = .commit
  | .commitQueued id _ reference newID _ => SettlingRow e.database.transactions id newID reference r ∧ r.status = .queued ∧ r.queueAction = .commit
  | .void id reference newID _ => SettlingRow e.database.transactions id newID reference r ∧ r.status = .void
  | .refund id skipQueue newID _ _ => ∃ o ∈ e.database.transactions, o.transactionID = id ∧ o.status = .applied ∧
      RefundRow o skipQueue newID r

/-- What one step does. -/
inductive Step (e : Engine) (op : Operation) (e' : Engine) : Prop
  | created (id currency : String) (created : e' = { e with database := e.database.createBalance id currency })
  | appended (rs : List Row) (appended : Appended e e' rs) (writes : ∀ r ∈ rs, op.Writes e r)

variable {e e' : Engine} {op : Operation}

theorem withDatabase_ok {r : Except String Database} (h : e.withDatabase r = .ok e') :
    ∃ db', r = .ok db' ∧ e' = { e with database := db' } := map_ok h

theorem onMessage_ok {message : ℕ} {f : Transaction → Except String Database} (hs : e.Sound)
    (h : e.onMessage message f = .ok e') : ∃ t i db', e.queue[message]? = some t ∧
      Message e.database.transactions t i ∧ f t = .ok db' ∧ e' = { e with database := db' } := by
  rw [onMessage] at h
  split at h
  · rename_i t ht
    obtain ⟨db',hdb,rfl⟩ := withDatabase_ok h
    obtain ⟨i,hti⟩ := hs.messages t (mem_of_getElem? ht)
    exact ⟨t,i,db',ht,hti,hdb,rfl⟩
  · cases h

/-- An accepted operation that does not create a balance appends its rows. -/
theorem perform_appended (hs : e.Sound) (ha : e.admissible op = true)
    (hne : ∀ id currency, op ≠ .createBalance id currency) (h : e.perform op = .ok e') :
    ∃ rs, Appended e e' rs ∧ ∀ r ∈ rs, op.Writes e r := by
  rw [admissible,Bool.and_eq_true] at ha
  obtain ⟨hids,hgroup⟩ := ha
  have hfresh := (freshIDs_spec hids).2
  cases op with
  | createBalance id currency => exact absurd rfl (hne id currency)
  | post request group newID copyID queuedDebit =>
    obtain ⟨rs,happended,hrs,-⟩ := post_appended hs hids (fun g hg => by subst hg; exact hgroup) h
    exact ⟨rs,happended,hrs⟩
  | postLeg request leg splitID legID copyID queuedDebit =>
    obtain ⟨rs,happended,hrs,-⟩ := leg_appended hs hids hgroup h
    exact ⟨rs,happended,hrs⟩
  | work message queuedDebit =>
    obtain ⟨t,i,db',ht,hti,hdb,rfl⟩ := onMessage_ok hs h
    obtain ⟨rs,happended,hrs⟩ := work_appended hs hti (processQueuedTransaction_copy hti.copy (hs.find hti.mem) hdb)
    exact ⟨rs,happended,fun r hr => ⟨t,i,ht,hti,hrs r hr⟩⟩
  | workBatch message siblings queuedDebit =>
    obtain ⟨t,i,db',ht,hti,hdb,rfl⟩ := onMessage_ok hs h
    obtain ⟨rs,happended,hrs⟩ := batch_appended hs ⟨i,hti⟩ hfresh hdb
    exact ⟨rs,happended,hrs⟩
  | reject message =>
    obtain ⟨t,i,db',ht,hti,hdb,rfl⟩ := onMessage_ok hs h
    obtain ⟨r,happended,hchild,hstatus⟩ := reject_appended hs hti hdb
    exact ⟨[r],happended,fun x hx => mem_singleton.mp hx ▸ ⟨t,i,ht,hti,hchild,hstatus⟩⟩
  | recover id copyID exhausted queuedDebit =>
    obtain ⟨db',hdb,rfl⟩ := withDatabase_ok h
    obtain ⟨rs,happended,hrs⟩ := recover_appended hs (hfresh copyID mem_cons_self) hdb
    exact ⟨rs,happended,hrs⟩
  | commit id amount reference newID queuedDebit =>
    obtain ⟨db',hdb,rfl⟩ := withDatabase_ok h
    obtain ⟨r,happended,hr⟩ := commit_appended hs (hfresh newID mem_cons_self) hdb
    exact ⟨[r],happended,fun x hx => mem_singleton.mp hx ▸ hr⟩
  | commitQueued id amount reference newID copyID =>
    obtain ⟨⟨db',message⟩,hdb,rfl⟩ := map_ok h
    obtain ⟨r,happended,hr⟩ := commitQueued_appended hs (hfresh newID mem_cons_self)
      (hfresh copyID (mem_cons_of_mem _ mem_cons_self)) hdb
    exact ⟨[r],happended,fun x hx => mem_singleton.mp hx ▸ hr⟩
  | void id reference newID queuedDebit =>
    obtain ⟨db',hdb,rfl⟩ := withDatabase_ok h
    obtain ⟨r,happended,hsettling,hstatus,-⟩ := void_appended hs (hfresh newID mem_cons_self) hdb
    exact ⟨[r],happended,fun x hx => mem_singleton.mp hx ▸ ⟨hsettling,hstatus⟩⟩
  | refund id skipQueue newID copyID queuedDebit =>
    obtain ⟨o,ho,hid,happlied,r,happended,hr⟩ := refund_appended hs hids h
    exact ⟨[r],happended,fun x hx => mem_singleton.mp hx ▸ ⟨o,ho,hid,happlied,hr⟩⟩

theorem perform_ok (hs : e.Sound) (ha : e.admissible op = true)
    (h : e.perform op = .ok e') : Step e op e' := by
  cases op with
  | createBalance id currency =>
    cases h
    exact .created id currency rfl
  | _ =>
    obtain ⟨rs,happended,hrs⟩ := perform_appended hs ha (fun _ _ hc => by cases hc) h
    exact .appended rs happended hrs

theorem step_ok (hs : e.Sound) (op : Operation) : Step e op (e.step op) := by
  rw [step]
  split
  · rename_i ha
    split
    · rename_i e' h
      exact perform_ok hs ha h
    · exact .appended [] (appended_nothing e) fun _ hr => absurd hr not_mem_nil
  · exact .appended [] (appended_nothing e) fun _ hr => absurd hr not_mem_nil

theorem Step.sound (hs : e.Sound) (h : Step e op e') : e'.Sound := by
  cases h with
  | created id currency created => exact created ▸ hs.created id currency
  | appended rs appended _ => exact hs.appended appended

theorem Step.rows (h : Step e op e') :
    e.database.transactions <+: e'.database.transactions := by
  cases h with
  | created id currency created =>
    rw [created]
    exact (createBalance_frame e.database id currency).1 ▸ prefix_rfl
  | appended rs appended _ => exact ⟨rs,appended.posted.transactions.symm⟩

theorem Step.queue (h : Step e op e') : e.queue <+: e'.queue := by
  cases h with
  | created id currency created =>
    subst created
    exact prefix_rfl
  | appended rs appended _ =>
    obtain ⟨ts,hts,-⟩ := appended.queue
    exact ⟨ts,hts.symm⟩

theorem sound_foldl (hs : e.Sound) (ops : List Operation) :
    (ops.foldl step e).Sound ∧ e.database.transactions <+: (ops.foldl step e).database.transactions := by
  induction ops generalizing e with
  | nil => exact ⟨hs,prefix_rfl⟩
  | cons op ops ih =>
    have hone := step_ok hs op
    obtain ⟨hsound,hrows⟩ := ih (hone.sound hs)
    exact ⟨hsound,hone.rows.trans hrows⟩

theorem sound_run (ops : List Operation) : (run ops).Sound := (sound_foldl empty_sound ops).1

theorem run_append (ops ops' : List Operation) : run (ops ++ ops') = ops'.foldl step (run ops) := foldl_append

def accepts (e : Engine) (op : Operation) : Bool := e.admissible op && (e.perform op).isOk

theorem accepts_spec (h : e.accepts op = true) :
    e.admissible op = true ∧ e.perform op = .ok (e.step op) := by
  rw [accepts,Bool.and_eq_true] at h
  obtain ⟨ha,hok⟩ := h
  refine ⟨ha,?_⟩
  rw [step,if_pos ha]
  cases hp : e.perform op with
  | error _ =>
    rw [hp] at hok
    cases hok
  | ok e' => rfl

def Along (cond : Engine → Operation → Prop) : Engine → List Operation → Prop
  | _, [] => True
  | e, op :: rest => cond e op ∧ Along cond (e.step op) rest

instance decidableAlong {cond : Engine → Operation → Prop} [∀ e op, Decidable (cond e op)] (e : Engine) :
    (ops : List Operation) → Decidable (Along cond e ops)
  | [] => .isTrue trivial
  | op :: rest => @instDecidableAnd _ _ _ (decidableAlong (e.step op) rest)

theorem along_invariant {cond : Engine → Operation → Prop} {P : Engine → Prop}
    (hstep : ∀ e op e', e.Sound → P e → cond e op → Step e op e' → P e') (hempty : P empty) (ops : List Operation)
    (h : Along cond empty ops) : P (run ops) := by
  have hrun : ∀ ops e, e.Sound → P e → Along cond e ops → P (ops.foldl step e) := by
    intro ops
    induction ops with
    | nil => exact fun e _ he _ => he
    | cons op ops ih =>
      intro e hs he ha
      have hone := step_ok hs op
      exact ih _ (hone.sound hs) (hstep e op _ hs he ha.1 hone) ha.2
  exact hrun ops empty empty_sound hempty h

end LedgerForge.Engine

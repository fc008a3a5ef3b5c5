import LedgerForge.Hooks.Manager

/-! # Administration and deliveries of hooks

A step touches one hook. Whether the promise still holds of that hook afterwards is decided by what the step finds, and for
all others nothing changes.
-/

namespace LedgerForge.Hooks

open HookState Function Option EventRuns

variable {π : Type} [DecidableEq π] {validateURL : String → Option String} {s t : HookState π} {c : π} {client : Client}
  {id : String} {type : HookType}

theorem HookType.parse_text (type : HookType) : HookType.parse type.text = some type := by cases type <;> decide

theorem HookType.text_ne (type : HookType) : type.text ≠ "" := by cases type <;> decide

theorem HookType.eq_of_ne {a b type : HookType} (ha : a ≠ type) (hb : b ≠ type) : a = b := by
  cases a <;> cases b <;> cases type <;> simp_all

theorem boundedTimeout_of_mem {timeout : ℤ} (h : 0 < timeout ∧ timeout ≤ 120) : boundedTimeout timeout = timeout := by
  simp only [boundedTimeout]
  split_ifs <;> omega

theorem boundedRetryCount_of_mem {retryCount : ℤ} (h : 0 ≤ retryCount ∧ retryCount ≤ maxHookRetryCount) :
    boundedRetryCount retryCount = retryCount := by
  simp only [boundedRetryCount,maxHookRetryCount] at h ⊢
  split_ifs <;> omega

theorem validateHook_request {hook checked : Hook} (h : validateHook validateURL hook.request = .ok checked) : checked = hook := by
  unfold validateHook at h
  split at h
  · cases h
  split at h
  · cases h
  simp only [Hook.request,HookType.parse_text,boundedTimeout_of_mem hook.timeout_mem,
    boundedRetryCount_of_mem hook.retryCount_mem] at h
  cases h
  rfl

theorem isOk_validateHook {hook : Hook} (h : (validateHook validateURL hook.request).isOk = true) :
    validateHook validateURL hook.request = .ok hook := by
  cases hchecked : validateHook validateURL hook.request with
  | error err => rw [hchecked] at h; cases h
  | ok checked => rw [validateHook_request hchecked]

def Client.Keyed : Client → Prop
  | moving hookID _ hook => hook.id = hookID
  | adding hookID hook => hook.id = hookID
  | storing hookID hook _ => hook.id = hookID
  | _ => True

/-- A record is stored under its own id. -/
structure Keyed (s : HookState π) : Prop where
  hooks : ∀ id hook, s.hooks id = some hook → hook.id = id
  clients : ∀ c, (s.clients c).Keyed

omit [DecidableEq π] in
theorem Keyed.init : Keyed (init : HookState π) := ⟨nofun,fun _ => trivial⟩

theorem keyed_update {hooks : String → Option Hook} (h : ∀ id hook, hooks id = some hook → hook.id = id) {hook : Hook}
    (hid : hook.id = id) : ∀ id' hook', update hooks id (some hook) id' = some hook' → hook'.id = id' := by
  intro id' hook' hstored
  by_cases hne : id' = id
  · subst hne
    rw [update_self] at hstored
    cases hstored
    exact hid
  · rw [update_of_ne hne] at hstored
    exact h id' hook' hstored

theorem Keyed.setClient (h : Keyed s) (hclients : t.clients = update s.clients c client) (hclient : client.Keyed)
    (hhooks : ∀ id hook, t.hooks id = some hook → hook.id = id) : Keyed t := by
  refine ⟨hhooks,fun c' => ?_⟩
  rw [hclients]
  by_cases hc : c' = c
  · rwa [hc,update_self]
  · rw [update_of_ne hc]
    exact h.clients c'

theorem Keyed.advance (h : Keyed s) (c : π) : Keyed (s.advance c) := by
  have hclient := h.clients c
  unfold HookState.advance
  split <;> rename_i hc <;> rw [hc] at hclient
  · exact h
  · exact h.setClient rfl trivial h.hooks
  · exact h.setClient rfl hclient h.hooks
  · exact h.setClient rfl hclient h.hooks
  · exact h.setClient rfl trivial (keyed_update h.hooks hclient)
  · rename_i hookID type
    refine h.setClient rfl trivial fun id hook hstored => ?_
    dsimp only at hstored
    by_cases hid : id = hookID
    · rw [hid,update_self] at hstored
      cases hstored
    · rw [update_of_ne hid] at hstored
      exact h.hooks id hook hstored
  all_goals exact h.setClient rfl trivial h.hooks

theorem Keyed.updateHook (h : Keyed s) (c : π) (hookID : String) (hook : HookRequest) (lookup : Option String) :
    Keyed (s.updateHook validateURL c hookID hook lookup) := by
  unfold HookState.updateHook
  split
  · exact h
  split
  · exact h
  rename_i existing hstored
  have hid := h.hooks hookID existing hstored
  dsimp only
  split
  all_goals exact h.setClient rfl hid h.hooks

theorem Keyed.step (h : Keyed s) (e : HookEvent π) : Keyed (s.step validateURL e) := by
  cases e with
  | register c hook generated now lookup =>
    simp only [HookState.step]
    split
    · unfold registerHook
      split
      · exact h
      · exact h.setClient rfl trivial (keyed_update h.hooks rfl)
    · exact h
  | update c hookID hook lookup =>
    simp only [HookState.step]
    split
    · exact h.updateHook c hookID hook lookup
    · exact h
  | delete c hookID =>
    simp only [HookState.step,HookState.deleteHook]
    split
    · split
      · exact h
      · exact h.setClient rfl trivial h.hooks
    · exact h
  | execute c type ids =>
    simp only [HookState.step]
    split
    · split
      · exact h.setClient rfl trivial h.hooks
      · exact h
    · exact h
  | advance c => exact h.advance c
  | deliver task now success =>
    simp only [HookState.step,HookState.executeHook]
    split
    · exact h
    split
    · exact h
    · exact ⟨keyed_update h.hooks rfl,h.clients⟩

/-- The promise for the hook with one id. -/
structure Kept (s : HookState π) (id : String) : Prop where
  configuration : (s.hooks id).map Hook.toHookConfig = s.latest id
  filed : s.Settled id → ∀ stored, s.hooks id = some stored → s.Filed id stored.type

omit [DecidableEq π] in
theorem Keyed.mem_listHooks (h : Keyed s) {hook : Hook} :
    hook ∈ s.listHooks type.text ↔ hook.id ∈ s.typeSets type ∧ s.hooks hook.id = some hook := by
  simp only [listHooks,if_neg type.text_ne,type.parse_text,Multiset.mem_filterMap,Finset.mem_val]
  constructor
  · rintro ⟨id,hmem,hstored⟩
    obtain rfl := h.hooks id hook hstored
    exact ⟨hmem,hstored⟩
  · rintro ⟨hmem,hstored⟩
    exact ⟨hook.id,hmem,hstored⟩

omit [DecidableEq π] in
theorem Keyed.faithful_iff (h : Keyed s) : s.Faithful ↔ ∀ id, Kept s id := by
  constructor
  · intro hs id
    refine ⟨hs.configuration id,fun hsettled stored hstored type => ?_⟩
    obtain rfl := h.hooks id stored hstored
    have hlisted := hs.listing type stored hsettled
    rw [h.mem_listHooks] at hlisted
    simpa only [hstored,and_true,true_and,eq_comm] using hlisted
  · intro hs
    refine ⟨fun id => (hs id).configuration,fun type hook hsettled => ?_⟩
    rw [h.mem_listHooks,and_comm]
    refine and_congr_right fun hstored => ?_
    rw [(hs hook.id).filed hsettled hook hstored type,eq_comm]

theorem settled_iff (hclients : t.clients = update s.clients c client) :
    t.Settled id ↔ client.target ≠ some id ∧ ¬ s.Busy c id := by
  unfold HookState.Settled Busy
  rw [hclients,forall_update_iff s.clients (p := fun _ client => client.target ≠ some id)]
  simp only [ne_eq,not_exists,not_and]

/-- A step of one client that leaves all hooks but one alone. -/
structure Touches (s t : HookState π) (c : π) (client : Client) (id : String) : Prop where
  clients : t.clients = update s.clients c client
  hooks : ∀ other, other ≠ id → t.hooks other = s.hooks other
  latest : ∀ other, other ≠ id → t.latest other = s.latest other
  sets : ∀ other, other ≠ id → ∀ type, other ∈ t.typeSets type ↔ other ∈ s.typeSets type
  target : ∀ other, other ≠ id → client.target ≠ some other ∧ (s.clients c).target ≠ some other

omit [DecidableEq π] in
theorem Kept.congr (h : Kept s id) (hhooks : t.hooks id = s.hooks id) (hlatest : t.latest id = s.latest id)
    (hsets : ∀ type, id ∈ t.typeSets type ↔ id ∈ s.typeSets type) (hsettled : t.Settled id → s.Settled id) : Kept t id := by
  refine ⟨?_,fun hs stored hstored type => ?_⟩
  · rw [hhooks,hlatest]
    exact h.configuration
  · rw [hsets]
    exact h.filed (hsettled hs) stored (hhooks ▸ hstored) type

theorem Touches.kept_iff (h : Touches s t c client id) (hs : ∀ id, Kept s id) : (∀ id, Kept t id) ↔ Kept t id := by
  refine ⟨fun ht => ht id,fun ht other => ?_⟩
  by_cases hother : other = id
  · rwa [hother]
  refine (hs other).congr (h.hooks other hother) (h.latest other hother) (h.sets other hother) fun hsettled => ?_
  have hself : s.clients = update s.clients c (s.clients c) := (update_eq_self ..).symm
  exact (settled_iff hself).mpr ⟨(h.target other hother).2,((settled_iff h.clients).mp hsettled).2⟩

theorem kept_setClient (hs : ∀ id, Kept s id) (hclients : t.clients = update s.clients c client)
    (hold : (s.clients c).target = none) (hhooks : t.hooks = s.hooks) (hlatest : t.latest = s.latest)
    (hsets : t.typeSets = s.typeSets) : ∀ id, Kept t id := by
  intro id
  refine (hs id).congr (by rw [hhooks]) (by rw [hlatest]) (fun type => by rw [hsets]) fun hsettled => ?_
  have hself : s.clients = update s.clients c (s.clients c) := (update_eq_self ..).symm
  exact (settled_iff hself).mpr ⟨by rw [hold]; nofun,((settled_iff hclients).mp hsettled).2⟩

theorem kept_of_target (hclients : t.clients = update s.clients c client) (htarget : client.target = some id)
    (hconfiguration : (t.hooks id).map Hook.toHookConfig = t.latest id) : Kept t id :=
  ⟨hconfiguration,fun hsettled => absurd htarget ((settled_iff hclients).mp hsettled).1⟩

theorem kept_idle_iff (hclients : t.clients = update s.clients c .idle) :
    Kept t id ↔ (t.hooks id).map Hook.toHookConfig = t.latest id ∧
      (s.Busy c id ∨ ∀ stored, t.hooks id = some stored → t.Filed id stored.type) := by
  have hsettled : t.Settled id ↔ ¬ s.Busy c id := by
    rw [settled_iff hclients]
    exact and_iff_right nofun
  constructor
  · intro h
    refine ⟨h.configuration,?_⟩
    by_cases hbusy : s.Busy c id
    · exact .inl hbusy
    · exact .inr (h.filed (hsettled.mpr hbusy))
  · rintro ⟨hconfiguration,hfiled⟩
    exact ⟨hconfiguration,fun hs => hfiled.resolve_left (hsettled.mp hs)⟩

omit [DecidableEq π] in
theorem mem_sAdd {id' : String} {type' : HookType} :
    id' ∈ (s.sAdd type id).typeSets type' ↔ type' = type ∧ id' = id ∨ id' ∈ s.typeSets type' := by
  simp only [sAdd]
  by_cases htype : type' = type
  · subst htype
    simp
  · simp [htype]

omit [DecidableEq π] in
theorem mem_sRem {id' : String} {type' : HookType} :
    id' ∈ (s.sRem type id).typeSets type' ↔ ¬ (type' = type ∧ id' = id) ∧ id' ∈ s.typeSets type' := by
  simp only [sRem]
  by_cases htype : type' = type
  · subst htype
    simp
  · simp [htype]

theorem touches_sAdd (h : ∀ other, other ≠ id → client.target ≠ some other ∧ (s.clients c).target ≠ some other) :
    Touches s ((s.sAdd type id).setClient c client) c client id :=
  ⟨rfl,fun _ _ => rfl,fun _ _ => rfl,fun _ hother _ => mem_sAdd.trans (or_iff_right fun h => hother h.2),h⟩

theorem touches_sRem (h : ∀ other, other ≠ id → client.target ≠ some other ∧ (s.clients c).target ≠ some other) :
    Touches s ((s.sRem type id).setClient c client) c client id :=
  ⟨rfl,fun _ _ => rfl,fun _ _ => rfl,fun _ hother _ => mem_sRem.trans (and_iff_right fun h => hother h.2),h⟩

/-- The last command of an operation on the sets leaves the hook filed, unless another operation is at work on it. -/
theorem Touches.kept_filed (h : Touches s t c .idle id) (hs : ∀ id, Kept s id) (hhooks : t.hooks = s.hooks)
    (hlatest : t.latest = s.latest) : (∀ id, Kept t id) ↔ s.Busy c id ∨ ∀ stored, s.hooks id = some stored → t.Filed id stored.type := by
  rw [h.kept_iff hs,kept_idle_iff h.clients,hhooks,hlatest]
  exact and_iff_right (hs id).configuration

theorem kept_registering (hs : ∀ id, Kept s id) {hook : Hook} (hc : s.clients c = .registering hook) :
    (∀ id, Kept (s.advance c) id) ↔ s.Busy c hook.id ∨
      ∀ stored, s.hooks hook.id = some stored → stored.type = hook.type ∧ ∀ type, hook.id ∈ s.typeSets type → type = hook.type := by
  have hadvance : s.advance c = (s.sAdd hook.type hook.id).setClient c .idle := by simp only [advance,hc]
  have htouches : Touches s (s.advance c) c .idle hook.id := hadvance ▸ touches_sAdd fun other hother =>
    ⟨nofun,by rw [hc]; exact fun h => hother (some.inj h).symm⟩
  have hfiled (stored : Hook) : (s.advance c).Filed hook.id stored.type ↔
      stored.type = hook.type ∧ ∀ type, hook.id ∈ s.typeSets type → type = hook.type := by
    have hmem type : hook.id ∈ (s.advance c).typeSets type ↔ type = hook.type ∨ hook.id ∈ s.typeSets type := by
      rw [hadvance]
      exact mem_sAdd.trans (by rw [and_iff_left rfl])
    simp only [Filed,hmem]
    constructor
    · intro h
      have htype : stored.type = hook.type := ((h hook.type).mp (.inl rfl)).symm
      exact ⟨htype,fun type hin => htype ▸ (h type).mp (.inr hin)⟩
    · rintro ⟨htype,honly⟩ type
      rw [htype]
      exact ⟨fun h => h.elim id (honly type),.inl⟩
  rw [htouches.kept_filed hs (by rw [hadvance]; rfl) (by rw [hadvance]; rfl)]
  simp only [hfiled]

theorem kept_storing (hs : ∀ id, Kept s id) {hookID : String} {hook : Hook} {moved : Bool}
    (hc : s.clients c = .storing hookID hook moved) : (∀ id, Kept (s.advance c) id) ↔
      (s.hooks hookID).isSome ∧ (s.Busy c hookID ∨ s.Filed hookID hook.type) := by
  obtain ⟨t,ht⟩ : ∃ t, t = s.advance c := ⟨_,rfl⟩
  have hadvance := ht
  simp only [advance,hc] at hadvance
  rw [← ht]
  have htouches : Touches s t c .idle hookID := by
    rw [hadvance]
    refine ⟨rfl,fun other hother => update_of_ne hother ..,fun other hother => update_of_ne hother ..,
      fun _ _ _ => Iff.rfl,fun other hother => ⟨nofun,?_⟩⟩
    rw [hc]
    cases moved with
    | false => nofun
    | true => exact fun h => hother (some.inj h).symm
  have hstored : t.hooks hookID = some hook := by rw [hadvance]; exact update_self ..
  have hlatest : t.latest hookID = (s.latest hookID).map fun _ => hook.toHookConfig := by
    rw [hadvance]; exact update_self ..
  have hfiled : t.Filed hookID hook.type ↔ s.Filed hookID hook.type := by rw [hadvance]; exact Iff.rfl
  rw [htouches.kept_iff hs,kept_idle_iff htouches.clients,hstored,hlatest,← (hs hookID).configuration]
  refine and_congr ?_ (or_congr_right ?_)
  · cases s.hooks hookID <;> simp
  · simp only [some.injEq,forall_eq',hfiled]

theorem kept_removing (hs : ∀ id, Kept s id) {hookID : String} {type : HookType} (hc : s.clients c = .removing hookID type) :
    (∀ id, Kept (s.advance c) id) ↔ s.Busy c hookID ∨
      ∀ stored, s.hooks hookID = some stored → stored.type ≠ type ∧ hookID ∈ s.typeSets stored.type := by
  have hadvance : s.advance c = (s.sRem type hookID).setClient c .idle := by simp only [advance,hc]
  have htouches : Touches s (s.advance c) c .idle hookID := hadvance ▸ touches_sRem fun other hother =>
    ⟨nofun,by rw [hc]; exact fun h => hother (some.inj h).symm⟩
  have hfiled (stored : Hook) : (s.advance c).Filed hookID stored.type ↔
      stored.type ≠ type ∧ hookID ∈ s.typeSets stored.type := by
    have hmem type' : hookID ∈ (s.advance c).typeSets type' ↔ type' ≠ type ∧ hookID ∈ s.typeSets type' := by
      rw [hadvance]
      exact mem_sRem.trans (by rw [and_iff_left rfl])
    simp only [Filed,hmem]
    constructor
    · intro h
      exact (h stored.type).mpr rfl
    · rintro ⟨htype,hin⟩ type'
      refine ⟨fun h => HookType.eq_of_ne h.1 htype,?_⟩
      rintro rfl
      exact ⟨htype,hin⟩
  rw [htouches.kept_filed hs (by rw [hadvance]; rfl) (by rw [hadvance]; rfl)]
  simp only [hfiled]

/-- The commands that are not the last of an operation. -/
theorem kept_advance (hs : ∀ id, Kept s id) (hregistering : ∀ hook, s.clients c ≠ .registering hook)
    (hstoring : ∀ hookID hook moved, s.clients c ≠ .storing hookID hook moved)
    (hremoving : ∀ hookID type, s.clients c ≠ .removing hookID type) : ∀ id, Kept (s.advance c) id := by
  unfold advance
  split <;> rename_i hc
  · exact hs
  · exact absurd hc (hregistering _)
  · rename_i hookID existing hook
    have htouches : Touches s ((s.sRem existing hookID).setClient c (.adding hookID hook)) c (.adding hookID hook) hookID :=
      touches_sRem fun other hother => ⟨fun h => hother (some.inj h).symm,by rw [hc]; nofun⟩
    exact (htouches.kept_iff hs).mpr (kept_of_target rfl rfl (hs hookID).configuration)
  · rename_i hookID hook
    have htouches : Touches s ((s.sAdd hook.type hookID).setClient c (.storing hookID hook true)) c (.storing hookID hook true)
        hookID := touches_sAdd fun other hother =>
      ⟨fun h => hother (some.inj h).symm,by rw [hc]; exact fun h => hother (some.inj h).symm⟩
    exact (htouches.kept_iff hs).mpr (kept_of_target rfl rfl (hs hookID).configuration)
  · exact absurd hc (hstoring _ _ _)
  · rename_i hookID type
    obtain ⟨t,ht⟩ : ∃ t : HookState π, t = { s.setClient c (.removing hookID type) with
      hooks := update s.hooks hookID none, latest := update s.latest hookID none } := ⟨_,rfl⟩
    rw [← ht]
    have htouches : Touches s t c (.removing hookID type) hookID := by
      rw [ht]
      refine ⟨rfl,fun other hother => update_of_ne hother ..,fun other hother => update_of_ne hother ..,
        fun _ _ _ => Iff.rfl,fun other hother => ⟨fun h => hother (some.inj h).symm,by rw [hc]; nofun⟩⟩
    refine (htouches.kept_iff hs).mpr (kept_of_target htouches.clients rfl ?_)
    rw [ht]
    simp only [update_self,map_none]
  · exact absurd hc (hremoving _ _)
  all_goals exact kept_setClient hs rfl (by rw [hc]; rfl) rfl rfl rfl

theorem kept_registerHook (hs : ∀ id, Kept s id) (hc : s.clients c = .idle) (hook : HookRequest) (generated : String) (now : ℕ)
    (lookup : Option String) : ∀ id, Kept (s.registerHook validateURL c hook generated now lookup) id := by
  unfold HookState.registerHook
  split
  · exact hs
  rename_i hook' _
  obtain ⟨t,ht⟩ : ∃ t : HookState π, t = { (s.set hook'.id hook').setClient c (.registering hook') with
    latest := update s.latest hook'.id (some hook'.toHookConfig) } := ⟨_,rfl⟩
  rw [← ht]
  have htouches : Touches s t c (.registering hook') hook'.id := by
    rw [ht]
    refine ⟨rfl,fun other hother => update_of_ne hother ..,fun other hother => update_of_ne hother ..,
      fun _ _ _ => Iff.rfl,fun other hother => ⟨fun h => hother (some.inj h).symm,by rw [hc]; nofun⟩⟩
  refine (htouches.kept_iff hs).mpr (kept_of_target htouches.clients rfl ?_)
  rw [ht]
  simp only [HookState.set,HookState.setClient,update_self,map_some]

theorem kept_updateHook (hs : ∀ id, Kept s id) (hc : s.clients c = .idle) (hookID : String) (hook : HookRequest)
    (lookup : Option String) : ∀ id, Kept (s.updateHook validateURL c hookID hook lookup) id := by
  unfold updateHook
  split
  · exact hs
  split
  · exact hs
  dsimp only
  split
  all_goals exact kept_setClient hs rfl (by rw [hc]; rfl) rfl rfl rfl

omit [DecidableEq π] in
theorem kept_set (hs : ∀ id, Kept s id) (hook : Hook) : (∀ id, Kept (s.set hook.id hook) id) ↔
    ∃ stored, s.hooks hook.id = some stored ∧ stored.toHookConfig = hook.toHookConfig := by
  have hstored : (s.set hook.id hook).hooks hook.id = some hook := update_self ..
  constructor
  · intro h
    have hconfiguration := (h hook.id).configuration
    rw [hstored] at hconfiguration
    exact map_eq_some_iff.mp ((hs hook.id).configuration.trans hconfiguration.symm)
  · rintro ⟨stored,hbefore,hsame⟩ id
    by_cases hid : id = hook.id
    · subst hid
      have hkept := hs hook.id
      refine ⟨?_,fun hsettled stored' hstored' => ?_⟩
      · rw [hstored,Option.map_some,← hsame]
        exact (congrArg (Option.map _) hbefore).symm.trans hkept.configuration
      · cases hstored.symm.trans hstored'
        have htype : hook.type = stored.type := by rw [← hsame]
        rw [htype]
        exact hkept.filed hsettled stored hbefore
    · exact (hs id).congr (update_of_ne hid ..) rfl (fun _ => Iff.rfl) fun h => h

theorem kept_deliver (hs : ∀ id, Kept s id) (task now : ℕ) (success : Bool) :
    (∀ id, Kept (s.step validateURL (.deliver task now success)) id) ↔ s.Clean validateURL (.deliver task now success) := by
  simp only [step,Clean]
  cases htask : s.queue[task]? with
  | none => exact ⟨fun _ => nofun,fun _ => hs⟩
  | some hook =>
    simp only [some.injEq,forall_eq',executeHook]
    by_cases hok : (validateHook validateURL hook.request).isOk = true
    · rw [isOk_validateHook hok]
      simp only [Except.isOk,Except.toBool,forall_const]
      exact kept_set hs { hook with lastRun := now, lastSuccess := success }
    · cases hchecked : validateHook validateURL hook.request with
      | ok checked => rw [hchecked] at hok; exact absurd rfl hok
      | error err => exact ⟨fun _ => nofun,fun _ => hs⟩

theorem kept_step (hs : ∀ id, Kept s id) (e : HookEvent π) :
    (∀ id, Kept (s.step validateURL e) id) ↔ s.Clean validateURL e := by
  cases e with
  | register c hook generated now lookup =>
    refine iff_of_true ?_ trivial
    simp only [step]
    split
    · rename_i hc
      exact kept_registerHook hs hc hook generated now lookup
    · exact hs
  | update c hookID hook lookup =>
    refine iff_of_true ?_ trivial
    simp only [step]
    split
    · rename_i hc
      exact kept_updateHook hs hc hookID hook lookup
    · exact hs
  | delete c hookID =>
    refine iff_of_true ?_ trivial
    simp only [step,deleteHook]
    split
    · rename_i hc
      split
      · exact hs
      · exact kept_setClient hs rfl (by rw [hc]; rfl) rfl rfl rfl
    · exact hs
  | execute c type ids =>
    refine iff_of_true ?_ trivial
    simp only [step]
    split
    · rename_i hc
      split
      · exact kept_setClient hs rfl (by rw [hc]; rfl) rfl rfl rfl
      · exact hs
    · exact hs
  | advance c =>
    simp only [step,Clean]
    split <;> rename_i hc
    · exact kept_registering hs hc
    · exact kept_storing hs hc
    · exact kept_removing hs hc
    · rename_i hregistering hstoring
      exact iff_of_true (kept_advance hs hregistering hstoring hc) trivial
  | deliver task now success => exact kept_deliver hs task now success

/-- The hooks stay as they were registered and updated, and are listed by their types, exactly when every delivery still
finds the configuration that it carries, an update that it stores finds its hook, and what an operation ends with finds
the id in no set of another type. -/
theorem hook_configuration_survives (validateURL : String → Option String) (es : List (HookEvent π)) :
    Always (step validateURL) init Faithful es ↔ Meets (step validateURL) init (Clean validateURL) es := by
  refine always_iff_meets Keyed .init (fun s e h => h.step e) ?_ (fun s e h hs => ?_) es
  · exact Keyed.init.faithful_iff.mpr fun id => ⟨rfl,fun _ => nofun⟩
  · rw [(h.step e).faithful_iff]
    exact kept_step (h.faithful_iff.mp hs) e

def examplePost : HookRequest := ⟨"hook_1","audit","https://a.example/new","POST_TRANSACTION",true,30,3,0,0,false⟩

def examplePre : HookRequest := { examplePost with url := "https://a.example/old", type := "PRE_TRANSACTION" }

def queued : List (HookEvent Unit) :=
  [.register () examplePre "" 1 none,.advance (),.execute () .preTransaction ["hook_1"],.advance (),.advance ()]

def lateAfterUpdate : List (HookEvent Unit) :=
  queued ++ [.update () "hook_1" examplePost none,.advance (),.advance (),.advance (),.deliver 0 9 true]

def lateAfterDelete : List (HookEvent Unit) := queued ++ [.delete () "hook_1",.advance (),.advance (),.deliver 0 9 true]

/-- The same id is registered again, with the other type. -/
def registeredTwice : List (HookEvent Unit) :=
  [.register () examplePre "" 1 none,.advance (),.register () examplePost "" 2 none,.advance ()]

theorem stale_delivery_wins :
    (((lateAfterUpdate.foldl (step fun _ => none) init).hooks "hook_1").map (·.url) = some "https://a.example/old" ∧
      ((lateAfterUpdate.foldl (step fun _ => none) init).latest "hook_1").map (·.url) = some "https://a.example/new") ∧
    (((lateAfterDelete.foldl (step fun _ => none) init).hooks "hook_1").isSome = true ∧
      (lateAfterDelete.foldl (step fun _ => none) init).latest "hook_1" = none ∧
      (lateAfterDelete.foldl (step fun _ => none) init).listHooks "" = 0) ∧
    ((registeredTwice.foldl (step fun _ => none) init).listHooks "PRE_TRANSACTION").map (·.type) = {.postTransaction} := by
  decide +kernel

end LedgerForge.Hooks

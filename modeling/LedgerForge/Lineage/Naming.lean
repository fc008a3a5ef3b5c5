import LedgerForge.Chain.Encoding

/-! # Names of lineage balances

The balances that track an identity's funds are found by indicators: its name, the first bytes of its id and the provider,
joined by underscores. Texts are byte strings; folding to lower case is the library's.
-/

namespace LedgerForge.Lineage

open Chain Framing List

/-- The columns of an identity that its indicators are made of. -/
structure IdentityNames where
  identityID : Bytes
  firstName : Bytes
  lastName : Bytes
  organizationName : Bytes

variable (toLower : Bytes → Bytes) (provider : Bytes) (identity : IdentityNames)

def getIdentityIdentifier : Bytes :=
  let idPart := identity.identityID.take 8
  if identity.firstName ≠ [] ∧ identity.lastName ≠ [] then
    toLower (identity.firstName ++ ascii "_" ++ identity.lastName) ++ ascii "_" ++ idPart
  else if identity.organizationName ≠ [] then
    toLower (identity.organizationName.map fun c => if c = 32 then 95 else c) ++ ascii "_" ++ idPart
  else identity.identityID

def shadowBalanceIndicator : Bytes :=
  ascii "@" ++ provider ++ ascii "_" ++ getIdentityIdentifier toLower identity ++ ascii "_lineage"

def aggregateBalanceIndicator : Bytes := ascii "@" ++ getIdentityIdentifier toLower identity ++ ascii "_lineage"

/-- No two of the balances that any providers give these identities are found under one indicator. -/
structure Isolated (i j : IdentityNames) : Prop where
  shadows : ∀ p q, shadowBalanceIndicator toLower p i ≠ shadowBalanceIndicator toLower q j
  providers : ∀ x ∈ [i,j], ∀ p q, p ≠ q → shadowBalanceIndicator toLower p x ≠ shadowBalanceIndicator toLower q x
  aggregates : aggregateBalanceIndicator toLower i ≠ aggregateBalanceIndicator toLower j
  kinds : ∀ x ∈ [i,j], ∀ y ∈ [i,j], ∀ p, shadowBalanceIndicator toLower p x ≠ aggregateBalanceIndicator toLower y

/-- What stands behind the provider in a shadow indicator. -/
def identityEnding : Bytes := ascii "_" ++ getIdentityIdentifier toLower identity

variable {toLower} {i j : IdentityNames} {p q : Bytes}

theorem shadowBalanceIndicator_inj : shadowBalanceIndicator toLower p i = shadowBalanceIndicator toLower q j ↔
    p ++ identityEnding toLower i = q ++ identityEnding toLower j := by
  simp only [shadowBalanceIndicator,identityEnding,append_assoc]
  simp only [← append_assoc,append_left_inj]
  simp only [append_assoc,append_right_inj]

theorem shadow_eq_aggregate : shadowBalanceIndicator toLower p i = aggregateBalanceIndicator toLower j ↔
    p ++ identityEnding toLower i = getIdentityIdentifier toLower j := by
  simp only [shadowBalanceIndicator,aggregateBalanceIndicator,identityEnding,append_assoc]
  simp only [← append_assoc,append_left_inj]
  simp only [append_assoc,append_right_inj]

theorem shadow_ne_aggregate (h : identityEnding toLower i <:+ identityEnding toLower j → i = j) :
    shadowBalanceIndicator toLower p i ≠ aggregateBalanceIndicator toLower j := by
  intro heq
  have hends := shadow_eq_aggregate.mp heq
  obtain rfl := h (IsSuffix.trans ⟨p,hends⟩ (suffix_append ..))
  have hlength := congrArg length hends
  simp [identityEnding,ascii] at hlength
  omega

theorem lineage_isolated_iff (i j : IdentityNames) : Isolated toLower i j ↔
    ¬ identityEnding toLower i <:+ identityEnding toLower j ∧ ¬ identityEnding toLower j <:+ identityEnding toLower i := by
  constructor
  · intro h
    refine ⟨?_,?_⟩
    · rintro ⟨p,hp⟩
      exact h.shadows p [] (shadowBalanceIndicator_inj.mpr hp)
    · rintro ⟨q,hq⟩
      exact h.shadows [] q (shadowBalanceIndicator_inj.mpr hq.symm)
  · rintro ⟨hij,hji⟩
    refine ⟨fun p q heq => ?_,fun x _ p q hne heq => ?_,fun heq => ?_,?_⟩
    · have hends := shadowBalanceIndicator_inj.mp heq
      rcases suffix_or_suffix_of_suffix ⟨p,hends⟩ (suffix_append q _) with h | h
      · exact hij h
      · exact hji h
    · exact hne (append_cancel_right (shadowBalanceIndicator_inj.mp heq))
    · have hnames := append_cancel_left (append_cancel_right heq)
      rw [identityEnding,hnames] at hij
      exact hij suffix_rfl
    · simp only [forall_mem_cons,not_mem_nil,false_implies,implies_true,and_true]
      exact ⟨⟨fun p => shadow_ne_aggregate fun _ => rfl,fun p => shadow_ne_aggregate fun h => absurd h hij⟩,
        fun p => shadow_ne_aggregate fun h => absurd h hji,fun p => shadow_ne_aggregate fun _ => rfl⟩

/-- Namesakes whose ids begin alike share all of their balances. -/
theorem namesakes_share_balances :
    let i : IdentityNames := ⟨ascii "idt_1f2e-7c01",ascii "ada",ascii "obi",[]⟩
    let j : IdentityNames := ⟨ascii "idt_1f2e-93d4",ascii "ada",ascii "obi",[]⟩
    i.identityID ≠ j.identityID ∧ aggregateBalanceIndicator id i = aggregateBalanceIndicator id j ∧
      shadowBalanceIndicator id (ascii "bank") i = shadowBalanceIndicator id (ascii "bank") j := by
  decide

end LedgerForge.Lineage

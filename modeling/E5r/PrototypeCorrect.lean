import E5r.PrototypePlaces

/-!
The parameters of a signature are apart, and they are where their convention
passes them for the signatures of `Along`.
-/
namespace E5r.PrototypeCorrect
open StructLayout (CType Types resolve)
open CheckedWords (wrapping)
open PrototypeModel CallingConventions PrototypePlaces

def Above (st : Placing) : Storage → Prop
  | .integer n => st.integers ≤ n
  | .float n => st.floats ≤ n
  | .stack offset => st.stack ≤ offset

section
variable {types : Types} {abi : Abi} {ty : CType} {size : ℕ} {st : Placing}

/-- What one parameter takes is above what was taken, and below what is left. -/
structure Takes (st : Placing) (size : ℕ) (placed : List Storage × Placing) : Prop where
  above : ∀ s ∈ placed.1, Above st s
  below : ∀ s ∈ placed.1, ¬Above placed.2 s
  bytes : ∀ low : ℤ, .stack low ∈ placed.1 → low + size ≤ placed.2.stack
  grows : ∀ s, Above placed.2 s → Above st s

private theorem onStack_takes : Takes st size (onStack abi size st) := by
  have slot : 8 ≤ abi.slot := by
    rw [Abi.slot]
    omega
  have width : max size 1 ≤ (max size 1 + abi.slot - 1) / abi.slot * abi.slot := by
    have parts := Nat.div_add_mod' (max size 1 + abi.slot - 1) abi.slot
    have rest := Nat.mod_lt (max size 1 + abi.slot - 1) (show 0 < abi.slot by omega)
    omega
  rw [onStack]
  generalize (max size 1 + abi.slot - 1) / abi.slot * abi.slot = bytes at width
  refine ⟨?_, ?_, ?_, ?_⟩
  · simp [Above]
  · simp only [List.mem_singleton, forall_eq, Above]
    omega
  · simp only [List.mem_singleton, Storage.stack.injEq, forall_eq]
    omega
  · intro s above
    cases s with
    | integer n => exact above
    | float n => exact above
    | stack offset =>
      simp only [Above] at above ⊢
      omega

private theorem place_takes : Takes st size (place abi ty size st) := by
  rw [place]
  split
  · next after none =>
    have same : after = st := by
      unfold inRegisters at none
      dsimp only at none
      split at none
      · split at none <;> simp_all
      · split at none
        · simp only [Prod.mk.injEq, List.map_eq_nil_iff, List.range_eq_nil] at none
          rw [← none.2, none.1]
          rfl
        · exact (Prod.mk.inj none).2.symm
    rw [same]
    exact onStack_takes
  · next some =>
    unfold inRegisters at some ⊢
    dsimp only at some ⊢
    split
    · split
      · refine ⟨by simp [Above], by simp [Above], by simp, ?_⟩
        intro s above
        cases s with
        | float n => exact Nat.le_of_succ_le above
        | integer n => exact above
        | stack offset => exact above
      · exact ⟨by simp, by simp, by simp, fun s above => above⟩
    · split
      · refine ⟨?_, ?_, by simp, ?_⟩
        · simp only [List.mem_map, List.mem_range]
          rintro s ⟨i, -, rfl⟩
          exact Nat.le_add_right st.integers i
        · simp only [List.mem_map, List.mem_range]
          rintro s ⟨i, bound, rfl⟩
          simp only [Above]
          omega
        · intro s above
          cases s with
          | integer n => exact Nat.le_of_add_right_le above
          | float n => exact above
          | stack offset => exact above
      · exact ⟨by simp, by simp, by simp, fun s above => above⟩

private theorem placeFrom_above {ps : List (Option String × CType)} {index : ℕ} :
    ∀ p ∈ (placeFrom types abi index st ps).1, ∀ s ∈ p.storage, Above st s := by
  induction ps generalizing st index with
  | nil => nofun
  | cons first rest ih =>
    obtain ⟨name, ty⟩ := first
    have takes : Takes st (sizeOr0 types ty) (place abi (resolve ty) (sizeOr0 types ty) st) := place_takes
    intro p member s inside
    rw [placeFrom] at member
    rcases List.mem_cons.mp member with rfl | later
    · exact takes.above s inside
    · exact takes.grows s (ih p later s inside)

theorem placeFrom_apart {ps : List (Option String × CType)} {index : ℕ} :
    (placeFrom types abi index st ps).1.Pairwise Apart := by
  induction ps generalizing st index with
  | nil => exact .nil
  | cons first rest ih =>
    obtain ⟨name, ty⟩ := first
    have takes : Takes st (sizeOr0 types ty) (place abi (resolve ty) (sizeOr0 types ty) st) := place_takes
    rw [placeFrom]
    refine List.pairwise_cons.mpr ⟨?_, ih⟩
    intro p later
    have above := placeFrom_above p later
    refine ⟨fun s here there => takes.below s here (above s there), ?_⟩
    intro low high here there
    have bytes := takes.bytes low here
    have higher : (place abi (resolve ty) (sizeOr0 types ty) st).2.stack ≤ high := above (.stack high) there
    exact Int.le_trans bytes higher
end

section
variable {c : Convention} {types : Types} {sig : Signature}

private theorem returnsInMemory_eq (declares : Declares c types sig) :
    returnsInMemory types sig = inMemory types sig := by
  rw [returnsInMemory, inMemory]
  cases result : sig.returns with
  | none => rfl
  | some ty =>
    have known := declares.result ty result
    rw [resultOf] at known
    dsimp only
    rw [resultOf]
    cases seen : resolve ty with
    | composite id =>
      rw [seen] at known
      dsimp only at known ⊢
      cases size : (types.sizeOf wrapping ty).getD none with
      | none => rfl
      | some size =>
        rw [size] at known
        dsimp only at known ⊢
        split at known
        · next large => simp [large]
        · cases known
    | array inner length =>
      rw [seen] at known
      cases known
    | _ => rfl

private theorem storages_eq {abi : Abi} {ps : List (Option String × CType)}
    (known : ∀ p ∈ ps, ∃ k, kindOf types p.2 = some k) (index : ℕ) (st : Placing) :
    (placeFrom types abi index st ps).1.map Parameter.storage =
      slots abi st (ps.filterMap fun p => kindOf types p.2) := by
  induction ps generalizing index st with
  | nil => rfl
  | cons first rest ih =>
    obtain ⟨name, ty⟩ := first
    obtain ⟨k, here⟩ := known (name, ty) (List.mem_cons_self ..)
    have taken : ((name, ty) :: rest).filterMap (fun p => kindOf types p.2) =
        k :: rest.filterMap fun p => kindOf types p.2 :=
      List.filterMap_cons_some here
    rw [taken, slots, placeFrom, ← place_eq abi st here]
    exact congrArg _ (ih (fun p member => known p (List.mem_cons_of_mem _ member)) _ _)

private theorem linked_before (declares : Declares c types sig) (own : ¬(c = .aapcs64 ∧ inMemory types sig = true)) :
    Linked c (before c (inMemory types sig)) ⟨(reserve types sig (abi c)).1, 0, (abi c).stackArgumentBase⟩
      (c.start (inMemory types sig)) := by
  rw [reserve, returnsInMemory_eq declares]
  cases memory : inMemory types sig with
  | false =>
    cases c with
    | sysV | aapcs64 | aapcs32 | win64 | cdecl =>
      unfold Linked
      decide
  | true =>
    cases c with
    | aapcs64 => exact absurd ⟨rfl, memory⟩ own
    | sysV | aapcs32 | win64 | cdecl =>
      unfold Linked
      decide

/-- Parameters are placed where their convention passes them exactly when the
    result is not in memory under the 64-bit ARM convention, whose register for
    its address is not among those of the arguments, and each parameter suits
    after those before it. -/
theorem classify_assigned_iff (declares : Declares c types sig) : Assigned c types sig ↔
    ¬(c = .aapcs64 ∧ inMemory types sig = true) ∧ Along c (before c (inMemory types sig)) (kinds types sig) := by
  have passes : ∀ k ∈ kinds types sig, c.Passes k := by
    intro k member
    obtain ⟨p, declared, here⟩ := List.mem_filterMap.mp member
    obtain ⟨k', same, passed⟩ := declares.parameters p declared
    rw [here] at same
    cases same
    exact passed
  have storages : (classify types sig (abi c)).1.map (fun p => p.storage.map placeOf) =
      (slots (abi c) ⟨(reserve types sig (abi c)).1, 0, (abi c).stackArgumentBase⟩ (kinds types sig)).map
        (List.map placeOf) := by
    rw [kinds, ← storages_eq (fun p member => ⟨_, (declares.parameters p member).choose_spec.1⟩) 0, List.map_map]
    rfl
  constructor
  · rintro ⟨places, -, hidden⟩
    have own : ¬(c = .aapcs64 ∧ inMemory types sig = true) := by
      rintro ⟨rfl, memory⟩
      obtain ⟨-, first⟩ := hidden memory (Aarch64.gprOffset 8) rfl
      revert first
      decide
    rw [storages, Convention.places, slots_iff passes (linked_before declares own)] at places
    exact ⟨own, places⟩
  · rintro ⟨own, along⟩
    refine ⟨?_, placeFrom_apart, ?_⟩
    · rw [storages, Convention.places]
      exact (slots_iff passes (linked_before declares own)).mpr along
    · intro memory r named
      have taken : (classify types sig (abi c)).2.2 = (reserve types sig (abi c)).1 := rfl
      rw [taken, reserve, returnsInMemory_eq declares, memory]
      cases c with
      | aapcs64 => exact absurd ⟨rfl, memory⟩ own
      | aapcs32 =>
        cases named
        decide
      | sysV | win64 | cdecl => cases named
end

def oneStructure : Types := ⟨StructLayout.lp64, fun id => if id = 0 then some ⟨some 24, []⟩ else none⟩

/-- A function of an `int` and a `double` that returns it. -/
def returnsStructure : Signature := ⟨some (.composite 0), [(none, .int 4 true), (none, .float 8)]⟩

private theorem returnsStructure_declares (c : Convention) : Declares c oneStructure returnsStructure := by
  refine ⟨?_, ?_⟩
  · intro p member
    simp only [returnsStructure, List.mem_cons, List.not_mem_nil, or_false] at member
    rcases member with rfl | rfl
    · exact ⟨.integer 4, rfl, .inr (.inr (.inl rfl))⟩
    · exact ⟨.double, rfl, trivial⟩
  · rintro ty ⟨⟩
    rfl

theorem classify_assigned_sysV : Assigned .sysV oneStructure returnsStructure :=
  (classify_assigned_iff (returnsStructure_declares .sysV)).mpr ⟨by decide, .inl (by decide), trivial, trivial⟩

/-- The 64-bit ARM convention passes the address of the structure in a register of
    its own, and the `int` in the first one. -/
theorem classify_shifts :
    ¬∀ (c : Convention) (types : Types) (sig : Signature), Declares c types sig → Assigned c types sig := by
  intro every
  have places := (every .aapcs64 oneStructure returnsStructure (returnsStructure_declares .aapcs64)).places
  revert places
  decide

end E5r.PrototypeCorrect

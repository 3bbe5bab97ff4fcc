import E5r.ReplayedWrites
import E5r.SleighDecode

/-!
A decoder with its database of published context values. A decode reads its starting
context from the database and publishes into it, at addresses that the instruction
itself computes. Publishing twice is publishing once (`publish_twice`); decoding twice is
decoding once where the values published leave the starting context of the instruction's
own address as it was (`idempotent_iff`).
-/
namespace E5r.ContextDatabase
open ReplayedWrites SleighModel SleighDecode

/-- Context values published by `globalset`, under the addresses they apply at. -/
structure ContextDb where
  addresses : List (BitVec 64)
  slots : BitVec 64 → List Commit
  limit : Nat
  overflowed : Bool

def replaceField (c : Commit) : List Commit → List Commit
  | [] => []
  | existing :: rest => if existing.field = c.field then c :: rest else existing :: replaceField c rest

namespace ContextDb

/-- Publish a value. A second one of the same field at the same address replaces the
    first; a full list of an address and a full database refuse it. -/
def commit (db : ContextDb) (entry : BitVec 64 × Commit) : ContextDb :=
  let (addr, c) := entry
  if addr ∈ db.addresses then
    let slot := db.slots addr
    if slot.any (fun e => e.field = c.field) then
      { db with slots := Function.update db.slots addr (replaceField c slot) }
    else if slot.length < 64 then { db with slots := Function.update db.slots addr (slot ++ [c]) }
    else { db with overflowed := true }
  else if db.limit ≤ db.addresses.length then { db with overflowed := true }
  else { db with addresses := db.addresses ++ [addr], slots := Function.update db.slots addr [c] }

def published (db : ContextDb) (addr : BitVec 64) : List Commit := if addr ∈ db.addresses then db.slots addr else []

end ContextDb

structure Decoder where
  spec : Spec
  limits : DecodeLimits
  base : Context
  db : ContextDb

namespace Decoder

def decodeAt (decoder : Decoder) (bytes : List Byte) (addr : BitVec 64) : Except Stop Decoded :=
  SleighDecode.decodeAt decoder.spec (viaIndex decoder.spec) decoder.limits decoder.base decoder.db.published bytes addr

def decode (decoder : Decoder) (bytes : List Byte) (addr : BitVec 64) : Except Stop (Decoded × Decoder) := do
  let decoded ← decoder.decodeAt bytes addr
  return (decoded, { decoder with db := decoded.commits.foldl ContextDb.commit decoder.db })

def start (decoder : Decoder) (addr : BitVec 64) : Context :=
  applyPublished decoder.spec (decoder.db.published addr) decoder.base

end Decoder

def key (entry : BitVec 64 × Commit) : BitVec 64 × ContextFieldId := (entry.1, entry.2.field)

def Known (slot : List Commit) (f : ContextFieldId) : Prop := ∃ e ∈ slot, e.field = f

/-- Whether a field is published at an address does not change again. -/
def Settled (db : ContextDb) (k : BitVec 64 × ContextFieldId) : Prop :=
  (k.1 ∈ db.addresses ∧ (Known (db.slots k.1) k.2 ∨ 64 ≤ (db.slots k.1).length ∧ db.overflowed = true)) ∨
    (k.1 ∉ db.addresses ∧ db.limit ≤ db.addresses.length ∧ db.overflowed = true)

theorem any_known {slot : List Commit} {c : Commit} : slot.any (fun e => e.field = c.field) = true ↔ Known slot c.field := by
  simp [Known]

section
variable {as_ : List (BitVec 64)} {slots : BitVec 64 → List Commit} {limit : Nat} {o : Bool} {a : BitVec 64} {c : Commit}

theorem commit_replaces (here : a ∈ as_) (known : Known (slots a) c.field) :
    (ContextDb.mk as_ slots limit o).commit (a, c) =
      ⟨as_, Function.update slots a (replaceField c (slots a)), limit, o⟩ := by
  unfold ContextDb.commit
  dsimp only
  rw [if_pos here, if_pos (any_known.mpr known)]

theorem commit_appends (here : a ∈ as_) (fresh : ¬ Known (slots a) c.field) (room : (slots a).length < 64) :
    (ContextDb.mk as_ slots limit o).commit (a, c) = ⟨as_, Function.update slots a (slots a ++ [c]), limit, o⟩ := by
  unfold ContextDb.commit
  dsimp only
  rw [if_pos here, if_neg fun known => fresh (any_known.mp known), if_pos room]

theorem commit_full (here : a ∈ as_) (fresh : ¬ Known (slots a) c.field) (full : 64 ≤ (slots a).length) :
    (ContextDb.mk as_ slots limit o).commit (a, c) = ⟨as_, slots, limit, true⟩ := by
  unfold ContextDb.commit
  dsimp only
  rw [if_pos here, if_neg fun known => fresh (any_known.mp known), if_neg (by omega)]

theorem commit_refused (missing : a ∉ as_) (full : limit ≤ as_.length) :
    (ContextDb.mk as_ slots limit o).commit (a, c) = ⟨as_, slots, limit, true⟩ := by
  unfold ContextDb.commit
  dsimp only
  rw [if_neg missing, if_pos full]

theorem commit_inserts (missing : a ∉ as_) (room : as_.length < limit) :
    (ContextDb.mk as_ slots limit o).commit (a, c) = ⟨as_ ++ [a], Function.update slots a [c], limit, o⟩ := by
  unfold ContextDb.commit
  dsimp only
  rw [if_neg missing, if_neg (by omega)]

/-- What publishing a value can do. -/
theorem commit_cases (as_ : List (BitVec 64)) (slots : BitVec 64 → List Commit) (limit : Nat) (a : BitVec 64) (c : Commit) :
    (a ∈ as_ ∧ Known (slots a) c.field) ∨ (a ∈ as_ ∧ ¬ Known (slots a) c.field ∧ (slots a).length < 64) ∨
      (a ∈ as_ ∧ ¬ Known (slots a) c.field ∧ 64 ≤ (slots a).length) ∨ (a ∉ as_ ∧ limit ≤ as_.length) ∨
      (a ∉ as_ ∧ as_.length < limit) := by
  by_cases here : a ∈ as_
  · by_cases known : Known (slots a) c.field
    · exact .inl ⟨here, known⟩
    · by_cases room : (slots a).length < 64
      · exact .inr (.inl ⟨here, known, room⟩)
      · exact .inr (.inr (.inl ⟨here, known, by omega⟩))
  · by_cases full : limit ≤ as_.length
    · exact .inr (.inr (.inr (.inl ⟨here, full⟩)))
    · exact .inr (.inr (.inr (.inr ⟨here, by omega⟩)))

theorem commit_settled (settled : Settled ⟨as_, slots, limit, o⟩ (a, c.field)) :
    (a ∈ as_ ∧ Known (slots a) c.field) ∨
      ((a ∈ as_ → ¬ Known (slots a) c.field) ∧ (ContextDb.mk as_ slots limit o).commit (a, c) = ⟨as_, slots, limit, o⟩) := by
  rcases settled with ⟨here, known | ⟨full, overflowed⟩⟩ | ⟨missing, full, overflowed⟩
  · exact .inl ⟨here, known⟩
  · by_cases known : Known (slots a) c.field
    · exact .inl ⟨here, known⟩
    · obtain rfl : o = true := overflowed
      exact .inr ⟨fun _ => known, commit_full here known full⟩
  · obtain rfl : o = true := overflowed
    exact .inr ⟨fun here => absurd here missing, commit_refused missing full⟩
end

section
variable {slot : List Commit} {c d : Commit}

theorem known_replaceField {f : ContextFieldId} : Known (replaceField c slot) f ↔ Known slot f := by
  induction slot with
  | nil => rfl
  | cons e rest ih =>
    rw [replaceField]
    unfold Known at ih ⊢
    split
    · next same => simp only [List.mem_cons, exists_eq_or_imp, same]
    · simp only [List.mem_cons, exists_eq_or_imp, ih]

@[simp] theorem length_replaceField : (replaceField c slot).length = slot.length := by
  induction slot with
  | nil => rfl
  | cons e rest ih =>
    rw [replaceField]
    split
    · rfl
    · rw [List.length_cons, List.length_cons, ih]

theorem replaceField_same (same : c.field = d.field) : replaceField d (replaceField c slot) = replaceField d slot := by
  induction slot with
  | nil => rfl
  | cons e rest ih =>
    by_cases here : e.field = c.field
    · simp [replaceField, here, same]
    · have there : ¬ e.field = d.field := same ▸ here
      simp [replaceField, here, there, ih]

theorem replaceField_comm (apart : c.field ≠ d.field) :
    replaceField d (replaceField c slot) = replaceField c (replaceField d slot) := by
  induction slot with
  | nil => rfl
  | cons e rest ih =>
    by_cases here : e.field = c.field
    · have other : ¬ e.field = d.field := fun is => apart (here.symm.trans is)
      simp [replaceField, here, apart]
    · by_cases there : e.field = d.field
      · simp [replaceField, there, apart.symm]
      · simp [replaceField, here, there, ih]

theorem replaceField_append (known : Known slot c.field) : replaceField c (slot ++ [d]) = replaceField c slot ++ [d] := by
  induction slot with
  | nil =>
    obtain ⟨e, member, -⟩ := known
    cases member
  | cons e rest ih =>
    by_cases here : e.field = c.field
    · simp [replaceField, here]
    · have later : Known rest c.field := by
        obtain ⟨x, member, is⟩ := known
        rcases List.mem_cons.mp member with rfl | inside
        · exact absurd is here
        · exact ⟨x, inside, is⟩
      simp [replaceField, here, ih later]

theorem replaceField_last (fresh : ¬ Known slot c.field) : replaceField c (slot ++ [c]) = slot ++ [c] := by
  induction slot with
  | nil => simp [replaceField]
  | cons e rest ih =>
    have other : ¬ e.field = c.field := fun is => fresh ⟨e, List.mem_cons_self, is⟩
    have later : ¬ Known rest c.field := fun ⟨x, member, is⟩ => fresh ⟨x, List.mem_cons_of_mem _ member, is⟩
    simp [replaceField, other, ih later]

theorem known_append {f : ContextFieldId} : Known (slot ++ [c]) f ↔ Known slot f ∨ c.field = f := by
  simp [Known, or_and_right, exists_or]
end

variable (db : ContextDb) (x : BitVec 64 × Commit)

theorem settles : Settled (db.commit x) (key x) := by
  obtain ⟨as_, slots, limit, o⟩ := db
  obtain ⟨a, c⟩ := x
  rcases commit_cases as_ slots limit a c with ⟨here, known⟩ | ⟨here, fresh, room⟩ | ⟨here, fresh, full⟩ | ⟨missing, full⟩ |
    ⟨missing, room⟩
  · rw [commit_replaces here known]
    exact .inl ⟨here, .inl (by simpa [key] using known_replaceField.mpr known)⟩
  · rw [commit_appends here fresh room]
    exact .inl ⟨here, .inl (by simpa [key] using known_append.mpr (.inr rfl))⟩
  · rw [commit_full here fresh full]
    exact .inl ⟨here, .inr ⟨full, rfl⟩⟩
  · rw [commit_refused missing full]
    exact .inr ⟨missing, full, rfl⟩
  · rw [commit_inserts missing room]
    exact .inl ⟨List.mem_append_right _ (List.mem_singleton_self a), .inl (by simp [key, Known])⟩

/-- A change of one address that keeps its fields and shortens nothing. -/
theorem settled_update {as_ : List (BitVec 64)} {slots : BitVec 64 → List Commit} {limit : Nat} {o : Bool}
    {k : BitVec 64 × ContextFieldId} {b : BitVec 64} {slot : List Commit}
    (settled : Settled ⟨as_, slots, limit, o⟩ k) (known : Known (slots b) k.2 → Known slot k.2)
    (longer : (slots b).length ≤ slot.length) : Settled ⟨as_, Function.update slots b slot, limit, o⟩ k := by
  rcases settled with ⟨there, is⟩ | refused
  · refine .inl ⟨there, ?_⟩
    dsimp only at is ⊢
    by_cases same : k.1 = b
    · rw [same] at is ⊢
      rw [Function.update_self]
      exact is.imp known fun full => ⟨full.1.trans longer, full.2⟩
    · rw [Function.update_of_ne same]
      exact is
  · exact .inr refused

theorem keeps (k : BitVec 64 × ContextFieldId) (y : BitVec 64 × Commit) (settled : Settled db k) :
    Settled (db.commit y) k := by
  obtain ⟨as_, slots, limit, o⟩ := db
  obtain ⟨b, d⟩ := y
  rcases commit_cases as_ slots limit b d with ⟨here, known⟩ | ⟨here, fresh, room⟩ | ⟨here, fresh, full⟩ | ⟨missing, full⟩ |
    ⟨missing, room⟩
  · rw [commit_replaces here known]
    exact settled_update settled known_replaceField.mpr length_replaceField.ge
  · rw [commit_appends here fresh room]
    exact settled_update settled (fun known => known_append.mpr (.inl known)) (by simp)
  · rw [commit_full here fresh full]
    exact settled.imp (fun is => ⟨is.1, is.2.imp id fun full => ⟨full.1, rfl⟩⟩) fun is => ⟨is.1, is.2.1, rfl⟩
  · rw [commit_refused missing full]
    exact settled.imp (fun is => ⟨is.1, is.2.imp id fun full => ⟨full.1, rfl⟩⟩) fun is => ⟨is.1, is.2.1, rfl⟩
  · rw [commit_inserts missing room]
    rcases settled with ⟨there, is⟩ | ⟨-, full, -⟩
    · have apart : k.1 ≠ b := fun same => missing (same ▸ there)
      refine .inl ⟨List.mem_append_left _ there, ?_⟩
      dsimp only
      rw [Function.update_of_ne apart]
      exact is
    · dsimp only at full
      omega

theorem again : (db.commit x).commit x = db.commit x := by
  obtain ⟨as_, slots, limit, o⟩ := db
  obtain ⟨a, c⟩ := x
  rcases commit_cases as_ slots limit a c with ⟨here, known⟩ | ⟨here, fresh, room⟩ | ⟨here, fresh, full⟩ | ⟨missing, full⟩ |
    ⟨missing, room⟩
  · rw [commit_replaces here known, commit_replaces here (by simpa using known_replaceField.mpr known)]
    simp only [Function.update_self, Function.update_idem, replaceField_same]
  · rw [commit_appends here fresh room, commit_replaces here (by simpa using known_append.mpr (.inr rfl))]
    simp only [Function.update_self, Function.update_idem, replaceField_last fresh]
  · rw [commit_full here fresh full, commit_full here fresh full]
  · rw [commit_refused missing full, commit_refused missing full]
  · rw [commit_inserts missing room, commit_replaces (List.mem_append_right _ (List.mem_singleton_self a)) (by simp [Known])]
    simp only [Function.update_self, Function.update_idem, replaceField, if_true]

theorem overrides (y : BitVec 64 × Commit) (same : key x = key y) (settled : Settled db (key x)) :
    (db.commit x).commit y = db.commit y := by
  obtain ⟨as_, slots, limit, o⟩ := db
  obtain ⟨a, c⟩ := x
  obtain ⟨b, d⟩ := y
  obtain ⟨rfl, field⟩ : a = b ∧ c.field = d.field := Prod.mk.inj same
  rcases commit_settled settled with ⟨here, known⟩ | ⟨-, is⟩
  · have known' : Known (slots a) d.field := field ▸ known
    rw [commit_replaces here known, commit_replaces here (by simpa using known_replaceField.mpr known'),
      commit_replaces here known']
    simp only [Function.update_self, Function.update_idem, replaceField_same field]
  · rw [is]

theorem known_update {slots : BitVec 64 → List Commit} {a b : BitVec 64} {slot : List Commit} {f : ContextFieldId}
    (from_ : a = b → Known slot f → Known (slots b) f) (known : Known (Function.update slots b slot a) f) :
    Known (slots a) f := by
  by_cases same : a = b
  · subst same
    rw [Function.update_self] at known
    exact from_ rfl known
  · rwa [Function.update_of_ne same] at known

theorem commutes (y : BitVec 64 × Commit) (apart : key x ≠ key y) (settled : Settled db (key x)) :
    (db.commit x).commit y = (db.commit y).commit x := by
  obtain ⟨as_, slots, limit, o⟩ := db
  obtain ⟨a, c⟩ := x
  obtain ⟨b, d⟩ := y
  have fields (same : a = b) : c.field ≠ d.field := fun is => apart (Prod.ext same is)
  rcases commit_settled settled with ⟨here, known⟩ | ⟨fresh, is⟩
  · rw [commit_replaces here known]
    by_cases same : a = b
    · subst same
      rcases commit_cases as_ slots limit a d with ⟨-, other⟩ | ⟨-, other, room⟩ | ⟨-, other, full⟩ | ⟨missing, -⟩ |
        ⟨missing, -⟩
      · rw [commit_replaces here other, commit_replaces here (by simpa using known_replaceField.mpr other),
          commit_replaces here (by simpa using known_replaceField.mpr known)]
        simp only [Function.update_self, Function.update_idem, replaceField_comm (fields rfl)]
      · rw [commit_appends here other room,
          commit_appends here (by simpa using fun known => other (known_replaceField.mp known)) (by simpa using room),
          commit_replaces here (by simpa using known_append.mpr (.inl known))]
        simp only [Function.update_self, Function.update_idem, replaceField_append known]
      · rw [commit_full here other full,
          commit_full here (by simpa using fun known => other (known_replaceField.mp known)) (by simpa using full),
          commit_replaces here known]
      · exact absurd here missing
      · exact absurd here missing
    · have swap (slot : List Commit) : Function.update slots a slot b = slots b := Function.update_of_ne (Ne.symm same) ..
      have back (slot : List Commit) : Function.update slots b slot a = slots a := Function.update_of_ne same ..
      rcases commit_cases as_ slots limit b d with ⟨there, other⟩ | ⟨there, other, room⟩ | ⟨there, other, full⟩ |
        ⟨missing, full⟩ | ⟨missing, room⟩
      · rw [commit_replaces there other, commit_replaces there (by rwa [swap]), commit_replaces here (by rwa [back]), swap,
          back, Function.update_comm same]
      · rw [commit_appends there other room, commit_appends there (by rwa [swap]) (by rwa [swap]),
          commit_replaces here (by rwa [back]), swap, back, Function.update_comm same]
      · rw [commit_full there other full, commit_full there (by rwa [swap]) (by rwa [swap]), commit_replaces here known]
      · rw [commit_refused missing full, commit_refused missing full, commit_replaces here known]
      · rw [commit_inserts missing room, commit_inserts missing room,
          commit_replaces (List.mem_append_left _ here) (by rwa [back]), back, Function.update_comm same]
  · have settled' := keeps _ _ (b, d) settled
    rw [is]
    rcases commit_cases as_ slots limit b d with ⟨there, other⟩ | ⟨there, other, room⟩ | ⟨there, other, full⟩ |
      ⟨missing, full⟩ | ⟨missing, room⟩
    · rw [commit_replaces there other] at settled' ⊢
      rcases commit_settled settled' with ⟨here, known⟩ | ⟨-, is'⟩
      · exact absurd (known_update (fun _ => known_replaceField.mp) known) (fresh here)
      · exact is'.symm
    · rw [commit_appends there other room] at settled' ⊢
      rcases commit_settled settled' with ⟨here, known⟩ | ⟨-, is'⟩
      · exact absurd (known_update (fun same known => (known_append.mp known).resolve_right fun is =>
          fields same is.symm) known) (fresh here)
      · exact is'.symm
    · rw [commit_full there other full] at settled' ⊢
      rcases commit_settled settled' with ⟨here, known⟩ | ⟨-, is'⟩
      · exact absurd known (fresh here)
      · exact is'.symm
    · rw [commit_refused missing full] at settled' ⊢
      rcases commit_settled settled' with ⟨here, known⟩ | ⟨-, is'⟩
      · exact absurd known (fresh here)
      · exact is'.symm
    · rw [commit_inserts missing room] at settled' ⊢
      rcases commit_settled settled' with ⟨here, known⟩ | ⟨-, is'⟩
      · have known' := known_update (fun same known => by
          obtain ⟨e, member, is⟩ := known
          exact absurd (List.mem_singleton.mp member ▸ is).symm (fields same)) known
        have there : a ∈ as_ := (List.mem_append.mp here).resolve_right fun last => by
          obtain rfl := List.mem_singleton.mp last
          obtain ⟨e, member, is⟩ := known
          rw [Function.update_self] at member
          exact fields rfl (List.mem_singleton.mp member ▸ is).symm
        exact absurd known' (fresh there)
      · exact is'.symm

theorem settling : Settling ContextDb.commit key Settled := ⟨settles, keeps, again, overrides, commutes⟩

theorem publish_twice (commits : List (BitVec 64 × Commit)) :
    commits.foldl ContextDb.commit (commits.foldl ContextDb.commit db) = commits.foldl ContextDb.commit db :=
  settling.replay commits db

section
variable {decoder decoder' : Decoder} {bytes : List Byte} {addr : BitVec 64} {d : Decoded}

theorem decode_eq_ok : decoder.decode bytes addr = .ok (d, decoder') ↔
    decoder.decodeAt bytes addr = .ok d ∧ decoder' = { decoder with db := d.commits.foldl ContextDb.commit decoder.db } := by
  unfold Decoder.decode
  simp only [Fallible.bind_ok_iff, Fallible.pure_ok_iff, Prod.mk.injEq]
  constructor
  · rintro ⟨d', ran, rfl, rfl⟩
    exact ⟨ran, rfl⟩
  · rintro ⟨ran, rfl⟩
    exact ⟨d, ran, rfl, rfl⟩

theorem decodeAt_congr {other : Decoder} (spec : other.spec = decoder.spec) (limits : other.limits = decoder.limits)
    (start : other.start addr = decoder.start addr) : other.decodeAt bytes addr = decoder.decodeAt bytes addr := by
  unfold Decoder.decodeAt decodeAt
  unfold Decoder.start at start
  rw [spec] at start
  rw [spec, limits, start]

/-- Decoding again gives the same and leaves the decoder as it is. -/
def Idempotent (decoder : Decoder) (bytes : List Byte) (addr : BitVec 64) : Prop :=
  ∀ d decoder', decoder.decode bytes addr = .ok (d, decoder') → decoder'.decode bytes addr = .ok (d, decoder')

/-- What the instruction publishes leaves the starting context of its own address as it
    was. -/
def Undisturbed (decoder : Decoder) (bytes : List Byte) (addr : BitVec 64) : Prop :=
  ∀ d, decoder.decodeAt bytes addr = .ok d →
    applyPublished decoder.spec ((d.commits.foldl ContextDb.commit decoder.db).published addr) decoder.base =
      decoder.start addr

/-- The second decode gives the same exactly when the walk over the context that it
    starts from does: what it publishes is published already. -/
theorem twice_iff (first : decoder.decode bytes addr = .ok (d, decoder')) :
    decoder'.decode bytes addr = .ok (d, decoder') ↔ decoder'.decodeAt bytes addr = .ok d := by
  obtain ⟨ran, rfl⟩ := decode_eq_ok.mp first
  rw [decode_eq_ok]
  refine ⟨And.left, fun again => ⟨again, ?_⟩⟩
  rw [publish_twice]
end

/-- The walk over the context that the published values make of the address's own starting
    context builds the same tree. -/
def Rewalks (decoder : Decoder) (bytes : List Byte) (addr : BitVec 64) : Prop :=
  ∀ d, decoder.decodeAt bytes addr = .ok d →
    SleighDecode.decodeAt decoder.spec (viaIndex decoder.spec) decoder.limits decoder.base
      (d.commits.foldl ContextDb.commit decoder.db).published bytes addr = .ok d

theorem rewalks_of_undisturbed {decoder : Decoder} {bytes : List Byte} {addr : BitVec 64}
    (undisturbed : Undisturbed decoder bytes addr) : Rewalks decoder bytes addr := by
  intro d ran
  rw [← ran]
  exact @decodeAt_congr decoder bytes addr { decoder with db := d.commits.foldl ContextDb.commit decoder.db } rfl rfl
    (undisturbed d ran)

/-- One instruction of one byte, which the context admits while the mode is off. It turns
    the mode on and publishes it at an address. -/
def switching (address : DisasmExpr) : Spec where
  varnodes := []
  tokens := []
  fields := []
  contextFields := [⟨0, 0, false, false, .none, first_bit⟩]
  tables := [⟨[⟨0⟩]⟩]
  constructors := [⟨[], [], .epsilon, ⟨[⟨⟨[]⟩, ⟨[⟨0x80, 0, by decide⟩]⟩, 1, [], []⟩], none⟩,
    [.assign (.context ⟨0⟩) (.num 1), .globalSet address ⟨0⟩]⟩]

def switcher (address : DisasmExpr) : Decoder where
  spec := switching address
  limits := ⟨64, 256, 200000, 64⟩
  base := Context.zeroed 4
  db := ⟨[], fun _ => [], 2 ^ 20, false⟩

/-- The instruction with its mode on. -/
def switched (at_ : BitVec 64) : Decoded where
  addr := 0
  len := 1
  nodes := [⟨⟨0⟩, 0, 1, []⟩]
  context := ((Context.zeroed 4).set ⟨0, 0, false, false, .none, first_bit⟩ 1).1
  commits := [(at_, ⟨⟨0⟩, 1, false⟩)]

theorem decodeAt_here : (switcher (.symbol (.builtin .instStart))).decodeAt [0] 0 = .ok (switched 0) := by decide +kernel

end E5r.ContextDatabase

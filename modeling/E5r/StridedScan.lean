import Mathlib.Data.Set.Card

/-!
A scan over 64-bit addresses that looks at every address of a grid, and behind every run
it is told to skip goes on at the next multiple of its stride. The cursor wraps. The
addresses it looks at are those of the grid as long as no run was met, and the multiples
of the stride from then on (`Grid`); it ends exactly when none of these leads it past
the top of the address space.
-/
namespace E5r.StridedScan

/-- How a scan stands: fuel ran out, a rounding overflowed, or it ended. -/
inductive Scan where
  | running
  | overflow
  | done (found : List ℕ)
deriving DecidableEq

/-- The least multiple of the stride from a number on. -/
def roundUp (v stride : ℕ) : ℕ := if v % stride = 0 then v else v + (stride - v % stride)

/-- `u64::next_multiple_of`, or none if the multiple does not fit. -/
def nextMultipleOf (v stride : ℕ) : Option ℕ := if roundUp v stride < 2 ^ 64 then some (roundUp v stride) else none

section
variable (stride : ℕ) (run : ℕ → Option ℕ) (hit : ℕ → Bool) (stop : ℕ)

def scanFrom : ℕ → ℕ → List ℕ → Scan
  | 0, _, _ => .running
  | fuel + 1, at_, out =>
    if at_ < stop then
      match run at_ with
      | some last =>
        match nextMultipleOf last stride with
        | none => .overflow
        | some past => scanFrom fuel (if at_ < past then past else (at_ + stride) % 2 ^ 64) out
      | none => scanFrom fuel ((at_ + stride) % 2 ^ 64) (if hit at_ then out ++ [at_] else out)
    else .done out

/-- An address that a scan from `start` looks at, or that lies in a run it skips. -/
def Grid (start a : ℕ) : Prop :=
  start ≤ a ∧
    ((a ≡ start [MOD stride] ∧ ∀ b, start ≤ b → b < a → b ≡ start [MOD stride] → run b = none) ∨
      (stride ∣ a ∧ ∃ b, start ≤ b ∧ b < a ∧ b ≡ start [MOD stride] ∧ (run b).isSome))

/-- From this address the scan goes on below the top of the address space. -/
def Passes (a : ℕ) : Prop :=
  match run a with
  | some last => last ≤ 2 ^ 64 - stride
  | none => a < 2 ^ 64 - stride

/-- What a scan reports. -/
def Found (start a : ℕ) : Prop := Grid stride run start a ∧ a < stop ∧ run a = none ∧ hit a = true

end

/-- What a run is: from each of its addresses it ends at the same place. -/
structure Runs (run : ℕ → Option ℕ) : Prop where
  ahead : ∀ ⦃a last⦄, run a = some last → a < last ∧ last < 2 ^ 64
  same : ∀ ⦃a last⦄, run a = some last → ∀ b, a ≤ b → b < last → run b = some last

/-- A stride that addresses wrap on evenly. -/
structure Stride (stride : ℕ) : Prop where
  positive : 0 < stride
  even : stride ∣ 2 ^ 64

variable {stride : ℕ} {run : ℕ → Option ℕ} {hit : ℕ → Bool} {stop start : ℕ}

theorem Stride.le (even : Stride stride) : stride ≤ 2 ^ 64 := Nat.le_of_dvd (by decide) even.even

theorem Stride.dvd_top (even : Stride stride) : stride ∣ 2 ^ 64 - stride := Nat.dvd_sub even.even (dvd_refl stride)

theorem roundUp_least (even : Stride stride) (v : ℕ) :
    v ≤ roundUp v stride ∧ stride ∣ roundUp v stride ∧ ∀ m, stride ∣ m → v ≤ m → roundUp v stride ≤ m := by
  have rest := Nat.mod_lt v even.positive
  have parts := Nat.div_add_mod v stride
  rw [roundUp]
  by_cases whole : v % stride = 0
  · rw [if_pos whole]
    exact ⟨le_rfl, Nat.dvd_of_mod_eq_zero whole, fun m _ above => above⟩
  · rw [if_neg whole]
    have up : v + (stride - v % stride) = stride * (v / stride + 1) := by
      rw [Nat.mul_add, Nat.mul_one]
      omega
    refine ⟨by omega, ⟨_, up⟩, fun m multiple above => ?_⟩
    obtain ⟨k, rfl⟩ := multiple
    rw [up]
    refine Nat.mul_le_mul_left _ ?_
    by_contra less
    have few : k ≤ v / stride := by omega
    have small := Nat.mul_le_mul_left stride few
    omega

theorem nextMultipleOf_some (even : Stride stride) {v past : ℕ} (next : nextMultipleOf v stride = some past) :
    v ≤ past ∧ stride ∣ past ∧ past < 2 ^ 64 ∧ ∀ m, stride ∣ m → v ≤ m → past ≤ m := by
  obtain ⟨above, multiple, least⟩ := roundUp_least even v
  rw [nextMultipleOf] at next
  by_cases below : roundUp v stride < 2 ^ 64
  · rw [if_pos below] at next
    obtain rfl := Option.some.inj next
    exact ⟨above, multiple, below, least⟩
  · rw [if_neg below] at next
    cases next

theorem nextMultipleOf_low (even : Stride stride) {v : ℕ} (low : v ≤ 2 ^ 64 - stride) :
    ∃ past, nextMultipleOf v stride = some past ∧ past ≤ 2 ^ 64 - stride := by
  have positive := even.positive
  have fits := even.le
  have least := (roundUp_least even v).2.2 _ even.dvd_top low
  exact ⟨roundUp v stride, if_pos (by omega), least⟩

theorem nextMultipleOf_high (even : Stride stride) {v : ℕ} (high : 2 ^ 64 - stride < v) : nextMultipleOf v stride = none := by
  obtain ⟨above, ⟨k, multiple⟩, -⟩ := roundUp_least even v
  obtain ⟨n, top⟩ := even.dvd_top
  refine if_neg fun below => ?_
  have more : n < k := by
    by_contra few
    have small := Nat.mul_le_mul_left stride (Nat.not_lt.mp few)
    omega
  have large := Nat.mul_le_mul_left stride (show n + 1 ≤ k from more)
  rw [Nat.mul_add, Nat.mul_one] at large
  have fits := even.le
  omega

theorem grid_start (stride : ℕ) (run : ℕ → Option ℕ) (start : ℕ) : Grid stride run start start :=
  ⟨le_rfl, .inl ⟨Nat.ModEq.refl _, fun b above below => by omega⟩⟩

theorem Grid.next (even : Stride stride) {x : ℕ} (grid : Grid stride run start x) (free : run x = none) :
    Grid stride run start (x + stride) ∧ ∀ a, Grid stride run start a → x < a → x + stride ≤ a := by
  have positive := even.positive
  obtain ⟨above, ⟨same, none_⟩ | ⟨multiple, b, low, before, onGrid, inRun⟩⟩ := grid
  · constructor
    · refine ⟨by omega, .inl ⟨Nat.add_modEq_right.trans same, fun b low less onGrid => ?_⟩⟩
      rcases Nat.lt_trichotomy b x with earlier | rfl | later
      · exact none_ b low earlier onGrid
      · exact free
      · have step := Nat.ModEq.add_le_of_lt (same.trans onGrid.symm) later
        omega
    · rintro a ⟨-, ⟨same', -⟩ | ⟨-, b, low, before, onGrid, inRun⟩⟩ less
      · exact Nat.ModEq.add_le_of_lt (same.trans same'.symm) less
      · rcases Nat.lt_trichotomy b x with earlier | rfl | later
        · rw [none_ b low earlier onGrid] at inRun
          cases inRun
        · rw [free] at inRun
          cases inRun
        · have step := Nat.ModEq.add_le_of_lt (same.trans onGrid.symm) later
          omega
  · constructor
    · exact ⟨by omega, .inr ⟨Nat.dvd_add multiple (dvd_refl stride), b, low, by omega, onGrid, inRun⟩⟩
    · rintro a ⟨-, ⟨-, none_⟩ | ⟨multiple', -⟩⟩ less
      · rw [none_ b low (by omega) onGrid] at inRun
        cases inRun
      · have left : x ≡ 0 [MOD stride] := (Nat.modEq_zero_iff_dvd).mpr multiple
        have right : a ≡ 0 [MOD stride] := (Nat.modEq_zero_iff_dvd).mpr multiple'
        exact Nat.ModEq.add_le_of_lt (left.trans right.symm) less

theorem Grid.skip (runs : Runs run) {x last past : ℕ} (even : Stride stride) (grid : Grid stride run start x)
    (inside : run x = some last) (next : nextMultipleOf last stride = some past) :
    Grid stride run start past ∧ x < past ∧ ∀ a, Grid stride run start a → x ≤ a → a < past → run a = some last := by
  obtain ⟨above, multiple, -, least⟩ := nextMultipleOf_some even next
  obtain ⟨ahead, -⟩ := runs.ahead inside
  have some_ : (run x).isSome := by rw [inside]; rfl
  have behind : ∀ a, x ≤ a → a < past → stride ∣ a → run a = some last := by
    intro a low less divides
    refine runs.same inside a low ?_
    by_contra over_
    have far := least a divides (by omega)
    omega
  obtain ⟨low, ⟨same, none_⟩ | ⟨divides, b, low', before, onGrid, inRun⟩⟩ := grid
  · refine ⟨⟨by omega, .inr ⟨multiple, x, low, by omega, same, some_⟩⟩, by omega, ?_⟩
    rintro a ⟨-, ⟨-, free⟩ | ⟨divides, -⟩⟩ from_ less
    · rcases Nat.eq_or_lt_of_le from_ with rfl | later
      · exact inside
      · rw [free x low later same] at some_
        cases some_
    · exact behind a from_ less divides
  · refine ⟨⟨by omega, .inr ⟨multiple, b, low', by omega, onGrid, inRun⟩⟩, by omega, ?_⟩
    rintro a ⟨-, ⟨-, free⟩ | ⟨divides', -⟩⟩ from_ less
    · rw [free b low' (by omega) onGrid] at inRun
      cases inRun
    · exact behind a from_ less divides'

theorem scanFrom_done (even : Stride stride) (runs : Runs run) (small : stop < 2 ^ 64) {fuel x : ℕ} {out : List ℕ}
    (enough : stop - x < fuel) (grid : Grid stride run start x)
    (passes : ∀ a, Grid stride run start a → x ≤ a → a < stop → Passes stride run a) :
    ∃ more, scanFrom stride run hit stop fuel x out = .done (out ++ more) ∧ more.Pairwise (· < ·) ∧
      ∀ a, a ∈ more ↔ x ≤ a ∧ Found stride run hit stop start a := by
  induction fuel generalizing x out with
  | zero => omega
  | succ fuel ih =>
    rw [scanFrom]
    by_cases inside : x < stop
    · rw [if_pos inside]
      have here := passes x grid le_rfl inside
      have positive := even.positive
      cases met : run x with
      | some last =>
        rw [Passes, met] at here
        obtain ⟨past, next, -⟩ := nextMultipleOf_low even here
        obtain ⟨onGrid, further, within⟩ := grid.skip runs even met next
        obtain ⟨more, ends, ordered, member⟩ := @ih past out (by omega) onGrid
          (fun a onGrid' low below => passes a onGrid' (by omega) below)
        refine ⟨more, ?_, ordered, fun a => (member a).trans ?_⟩
        · simp only [next, if_pos further]
          exact ends
        · constructor
          · rintro ⟨low, found⟩
            exact ⟨by omega, found⟩
          · rintro ⟨low, found⟩
            refine ⟨?_, found⟩
            by_contra less
            have skipped := within a found.1 low (by omega)
            rw [found.2.2.1] at skipped
            cases skipped
      | none =>
        rw [Passes, met] at here
        have here : x < 2 ^ 64 - stride := here
        obtain ⟨onGrid, further⟩ := grid.next even met
        have straight : (x + stride) % 2 ^ 64 = x + stride := Nat.mod_eq_of_lt (by omega)
        obtain ⟨more, ends, ordered, member⟩ := @ih (x + stride) (if hit x then out ++ [x] else out) (by omega)
          onGrid (fun a onGrid' low below => passes a onGrid' (by omega) below)
        simp only [straight]
        by_cases strikes : hit x = true
        · rw [if_pos strikes] at ends ⊢
          refine ⟨x :: more, by rw [ends, List.append_assoc, List.singleton_append], ?_, fun a => ?_⟩
          · refine List.pairwise_cons.mpr ⟨fun a inMore => ?_, ordered⟩
            have far := ((member a).mp inMore).1
            omega
          · rw [List.mem_cons, member]
            constructor
            · rintro (rfl | ⟨low, found⟩)
              · exact ⟨le_rfl, grid, inside, met, strikes⟩
              · exact ⟨by omega, found⟩
            · rintro ⟨low, found⟩
              rcases Nat.eq_or_lt_of_le low with rfl | later
              · exact .inl rfl
              · exact .inr ⟨further a found.1 later, found⟩
        · rw [if_neg strikes] at ends ⊢
          refine ⟨more, ends, ordered, fun a => (member a).trans ?_⟩
          constructor
          · rintro ⟨low, found⟩
            exact ⟨by omega, found⟩
          · rintro ⟨low, found⟩
            rcases Nat.eq_or_lt_of_le low with rfl | later
            · exact absurd found.2.2.2 strikes
            · exact ⟨further a found.1 later, found⟩
    · rw [if_neg inside]
      refine ⟨[], by rw [List.append_nil], .nil, fun a => ?_⟩
      constructor
      · intro inNone
        cases inNone
      · rintro ⟨low, found⟩
        have below := found.2.1
        omega

/-- A cursor whose place below the top of the address space the scan looks at: it wraps
    there and comes back. -/
theorem scanFrom_stuck (even : Stride stride) (runs : Runs run) {x : ℕ} (small : x < 2 ^ 64)
    (top : 2 ^ 64 - stride + x % stride < stop) (fuel : ℕ) (out found : List ℕ) :
    scanFrom stride run hit stop fuel x out ≠ .done found := by
  have positive := even.positive
  have fits := even.le
  induction fuel generalizing x out with
  | zero =>
    rw [scanFrom]
    exact Scan.noConfusion
  | succ fuel ih =>
    have rest := Nat.mod_lt x positive
    -- The cursor lies at most at the last place of its class.
    have place : x ≤ 2 ^ 64 - stride + x % stride := by
      have class_ : 2 ^ 64 - stride + x % stride ≡ x [MOD stride] := by
        have zero : 2 ^ 64 - stride ≡ 0 [MOD stride] := (Nat.modEq_zero_iff_dvd).mpr even.dvd_top
        calc 2 ^ 64 - stride + x % stride ≡ 0 + x [MOD stride] := zero.add (Nat.mod_modEq x stride)
          _ = x := Nat.zero_add x
      by_contra beyond
      have far := Nat.ModEq.add_le_of_lt class_ (Nat.not_le.mp beyond)
      omega
    rw [scanFrom, if_pos (by omega)]
    cases met : run x with
    | some last =>
      obtain ⟨ahead, below⟩ := runs.ahead met
      cases next : nextMultipleOf last stride with
      | none =>
        simp only [next]
        exact Scan.noConfusion
      | some past =>
        obtain ⟨above, ⟨k, multiple⟩, low, -⟩ := nextMultipleOf_some even next
        simp only [next, if_pos (show x < past by omega)]
        refine ih low ?_ out
        rw [multiple, Nat.mul_mod_right]
        omega
    | none =>
      simp only
      refine ih (Nat.mod_lt _ (by decide)) ?_ _
      rw [Nat.mod_mod_of_dvd _ even.even, Nat.add_mod_right]
      exact top

theorem scanFrom_endless (even : Stride stride) (runs : Runs run) (small : stop < 2 ^ 64) {a : ℕ}
    (grid : Grid stride run start a) (inside : a < stop) (wraps : ¬Passes stride run a) {x : ℕ}
    (here : Grid stride run start x) (ahead : x ≤ a) (fuel : ℕ) (out found : List ℕ) :
    scanFrom stride run hit stop fuel x out ≠ .done found := by
  have positive := even.positive
  have fits := even.le
  induction fuel generalizing x out with
  | zero =>
    rw [scanFrom]
    exact Scan.noConfusion
  | succ fuel ih =>
    rw [scanFrom, if_pos (by omega)]
    cases met : run x with
    | some last =>
      by_cases low : last ≤ 2 ^ 64 - stride
      · obtain ⟨past, next, -⟩ := nextMultipleOf_low even low
        obtain ⟨onGrid, further, within⟩ := here.skip runs even met next
        have behind : past ≤ a := by
          by_contra less
          have skipped := within a grid ahead (by omega)
          rw [Passes, skipped] at wraps
          exact wraps low
        simp only [next, if_pos further]
        exact ih onGrid behind out
      · simp only [nextMultipleOf_high even (Nat.not_le.mp low)]
        exact Scan.noConfusion
    | none =>
      by_cases low : x < 2 ^ 64 - stride
      · have straight : (x + stride) % 2 ^ 64 = x + stride := Nat.mod_eq_of_lt (by omega)
        obtain ⟨onGrid, further⟩ := here.next even met
        have later : x < a := by
          rcases Nat.eq_or_lt_of_le ahead with rfl | less
          · rw [Passes, met] at wraps
            exact absurd low wraps
          · exact less
        simp only [straight]
        exact ih onGrid (further a grid later) _
      · have top : 2 ^ 64 - stride + x % stride = x := by
          obtain ⟨k, multiple⟩ := even.dvd_top
          have offset : x = stride * k + (x - (2 ^ 64 - stride)) := by omega
          have rest : x % stride = x - (2 ^ 64 - stride) := by
            conv_lhs => rw [offset]
            rw [Nat.mul_add_mod, Nat.mod_eq_of_lt (by omega)]
          omega
        have below : x < 2 ^ 64 := by omega
        have stuck := @scanFrom_stuck stride run hit stop even runs x below (by omega) (fuel + 1) out found
        rw [scanFrom, if_pos (by omega), met] at stuck
        exact stuck

end E5r.StridedScan

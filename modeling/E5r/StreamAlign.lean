import Mathlib.Algebra.Group.Nat.Defs
import Mathlib.Data.Prod.Lex
import E5r.IncreasingRuns

/-!
Aligning two streams of tokens. Common ends are stripped, tokens that occur once on each
side are paired along a longest increasing subsequence, and the gaps between them are
aligned the same way. A gap without such a token is aligned along a longest common
subsequence, or given up when it is too large.
-/
namespace E5r.StreamAlign
open SortedRecords IncreasingRuns

/-- One step of an alignment: indices that correspond, or one side's alone. -/
inductive Step where
  | pair (i j : ℕ)
  | old (i : ℕ)
  | new (j : ℕ)
deriving DecidableEq

/-- How deep the recursion goes before it stops splitting. -/
def maxDepth : ℕ := 32

/-- The largest rectangle the fallback will fill in, in cells. -/
def maxArea : ℕ := 2 ^ 20

/-- How often a token was seen on either side, and where last. -/
structure Seen (α : Type) where
  token : α
  olds : ℕ
  news : ℕ
  old : ℕ
  new : ℕ
deriving DecidableEq

section
variable {α : Type} [DecidableEq α] (a b : List α)

/-- The tokens of a region of one side. -/
def window (lo hi : ℕ) : List α := (a.drop lo).take (hi - lo)

def countOld (counts : List (Seen α)) (p : α × ℕ) : List (Seen α) :=
  match counts with
  | [] => [⟨p.1, 1, 0, p.2, 0⟩]
  | e :: rest =>
    if e.token = p.1 then { e with olds := (e.olds + 1) % 2 ^ 32, old := p.2 } :: rest
    else e :: countOld rest p

def countNew (counts : List (Seen α)) (p : α × ℕ) : List (Seen α) :=
  match counts with
  | [] => []
  | e :: rest =>
    if e.token = p.1 then { e with news := (e.news + 1) % 2 ^ 32, new := p.2 } :: rest
    else e :: countNew rest p

def count (alo ahi blo bhi : ℕ) : List (Seen α) :=
  ((window b blo bhi).zipIdx blo).foldl countNew (((window a alo ahi).zipIdx alo).foldl countOld [])

/-- Tokens that occur exactly once on each side, paired and put in an order both streams
    agree on. -/
def uniqueCommon (alo ahi blo bhi : ℕ) : List (ℕ × ℕ) :=
  let once := (count a b alo ahi blo bhi).filter fun e => decide (e.olds = 1 ∧ e.news = 1)
  longestIncreasing Prod.snd (sortByKey (fun p : ℕ × ℕ => toLex p) (once.map fun e => (e.old, e.new)))

/-- The lengths of the longest common subsequences of the ends of two lists, row by row
    from the last one up. -/
def fillTable (xs ys : List α) : List ℕ :=
  (List.range xs.length).reverse.foldl (fun len i =>
    (List.range ys.length).reverse.foldl (fun len j =>
      len.set (i * (ys.length + 1) + j)
        (if xs[i]? = ys[j]? then len.getD ((i + 1) * (ys.length + 1) + j + 1) 0 + 1
        else max (len.getD ((i + 1) * (ys.length + 1) + j) 0) (len.getD (i * (ys.length + 1) + j + 1) 0))) len)
    (List.replicate ((xs.length + 1) * (ys.length + 1)) 0)

def oldsAlone (lo hi : ℕ) : List Step := (List.range' lo (hi - lo)).map .old
def newsAlone (lo hi : ℕ) : List Step := (List.range' lo (hi - lo)).map .new

def walk (alo ahi blo bhi : ℕ) (len : List ℕ) (i j : ℕ) : List Step :=
  if i < ahi - alo ∧ j < bhi - blo then
    if a[alo + i]? = b[blo + j]? then .pair (alo + i) (blo + j) :: walk alo ahi blo bhi len (i + 1) (j + 1)
    else if len.getD (i * (bhi - blo + 1) + j + 1) 0 ≤ len.getD ((i + 1) * (bhi - blo + 1) + j) 0 then
      .old (alo + i) :: walk alo ahi blo bhi len (i + 1) j
    else .new (blo + j) :: walk alo ahi blo bhi len i (j + 1)
  else oldsAlone (alo + i) ahi ++ newsAlone (blo + j) bhi
termination_by (ahi - alo - i) + (bhi - blo - j)

/-- A region with no unique token left in it. The flag says that it was too large. -/
def fallback (alo ahi blo bhi : ℕ) : List Step × Bool :=
  if maxArea < (ahi - alo) * (bhi - blo) then (oldsAlone alo ahi ++ newsAlone blo bhi, true)
  else (walk a b alo ahi blo bhi (fillTable (window a alo ahi) (window b blo bhi)) 0 0, false)

/-- How many tokens two regions of so many tokens have in common from two places on. -/
def front : ℕ → ℕ → ℕ → ℕ → ℕ
  | n + 1, m + 1, i, j => if a[i]? = b[j]? then front n m (i + 1) (j + 1) + 1 else 0
  | _, _, _, _ => 0

/-- How many tokens two regions of so many tokens have in common at their ends. -/
def back : ℕ → ℕ → ℕ → ℕ → ℕ
  | n + 1, m + 1, i, j => if a[i + n]? = b[j + m]? then back n m i j + 1 else 0
  | _, _, _, _ => 0

def pairs (i j n : ℕ) : List Step := (List.range n).map fun k => .pair (i + k) (j + k)

/-- The gaps before each anchor and behind the last, and the anchors between them. -/
def between (align : ℕ → ℕ → ℕ → ℕ → List Step × Bool) (ahi bhi : ℕ) : ℕ → ℕ → List (ℕ × ℕ) → List Step × Bool
  | pa, pb, [] => align pa ahi pb bhi
  | pa, pb, (i, j) :: rest =>
    let gap := align pa i pb j
    let later := between align ahi bhi (i + 1) (j + 1) rest
    (gap.1 ++ .pair i j :: later.1, gap.2 || later.2)

/-- A region between its common ends. -/
structure Region where
  alo : ℕ
  ahi : ℕ
  blo : ℕ
  bhi : ℕ
deriving DecidableEq

/-- What is left of a region without its common ends. -/
def strip (r : Region) : Region :=
  let p := front a b (r.ahi - r.alo) (r.bhi - r.blo) r.alo r.blo
  let q := back a b (r.ahi - r.alo - p) (r.bhi - r.blo - p) (r.alo + p) (r.blo + p)
  ⟨r.alo + p, r.ahi - q, r.blo + p, r.bhi - q⟩

/-- Align a region, with so many levels to go before it is no longer split. -/
def patience : ℕ → Region → List Step × Bool
  | levels, r =>
    let s := strip a b r
    let middle :=
      if s.alo = s.ahi ∨ s.blo = s.bhi then (oldsAlone s.alo s.ahi ++ newsAlone s.blo s.bhi, false)
      else
        match levels with
        | 0 => fallback a b s.alo s.ahi s.blo s.bhi
        | levels + 1 =>
          match uniqueCommon a b s.alo s.ahi s.blo s.bhi with
          | [] => fallback a b s.alo s.ahi s.blo s.bhi
          | anchors =>
            between (fun alo ahi blo bhi => patience levels ⟨alo, ahi, blo, bhi⟩) s.ahi s.bhi s.alo s.blo anchors
    (pairs r.alo r.blo (s.alo - r.alo) ++ middle.1 ++ pairs s.ahi s.bhi (r.ahi - s.ahi), middle.2)

/-- Align two token streams. The flag says whether any region was too large to align. -/
def align : List Step × Bool := patience a b maxDepth ⟨0, a.length, 0, b.length⟩

end

end E5r.StreamAlign

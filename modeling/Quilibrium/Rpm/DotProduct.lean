import Mathlib.Algebra.BigOperators.Fin
import Mathlib.Data.Matrix.Mul
import Quilibrium.Lib.Except
import Quilibrium.Tries.Nibble

/-! # Matrix products

`generate_dot_product` of `crates/rpm/src/lib.rs`, over an arbitrary field. Above one hundred rows it calls
`coppersmith_winograd`, which is for square matrices. -/

namespace Quilibrium.Rpm
open List Except

variable {F : Type}

def entry (a : List (List F)) (i j : Nat) : Except Fault F :=
  (a[i]? >>= (·[j]?)).elim (.error .indexOutOfRange) .ok

def tabulate (m n : Nat) (f : Nat → Nat → Except Fault F) : Except Fault (List (List F)) :=
  (range m).mapM fun i => (range n).mapM (f i)

def rowLength (a : List (List F)) : Except Fault Nat := (a[0]?).elim (.error .indexOutOfRange) (.ok ∘ length)

/-- `add_matrices` and `subtract_matrices`. -/
def combine (op : F → F → F) (a b : List (List F)) : Except Fault (List (List F)) := do
  if a.length ≠ b.length ∨ (← rowLength a) ≠ (← rowLength b) then throw .logPanic
  tabulate a.length (← rowLength a) fun i j => return op (← entry a i j) (← entry b i j)

variable {m k n : Nat}

def rows (A : Matrix (Fin m) (Fin n) F) : List (List F) := ofFn fun i => ofFn (A i)

theorem entry_rows (A : Matrix (Fin m) (Fin n) F) (i : Fin m) (j : Fin n) : entry (rows A) i j = .ok (A i j) := by
  simp [entry, rows]

theorem rowLength_rows (A : Matrix (Fin m) (Fin n) F) (hm : 0 < m) : rowLength (rows A) = .ok n := by
  simp [rowLength, rows, hm]

theorem tabulate_rows {f : Nat → Nat → Except Fault F} {A : Matrix (Fin m) (Fin n) F} (h : ∀ i j, f i.1 j.1 = .ok (A i j)) :
    tabulate m n f = .ok (rows A) := by
  have hrange : ∀ {α : Type} {k : Nat} {f : Nat → Except Fault α} {g : Fin k → α}, (∀ i, f i.1 = .ok (g i)) →
      (range k).mapM f = .ok (ofFn g) := by
    intro α k f g h
    rw [mapM_ok_iff, map_ofFn]
    exact ext_getElem (by simp) fun i hi _ => by simpa using h ⟨i, by simpa using hi⟩
  exact hrange fun i => hrange (h i)

variable [Field F]

def pad (n newSize : Nat) (a : List (List F)) : Except Fault (List (List F)) := do
  let rows ← tabulate n n (entry a)
  return rows.map (· ++ replicate (newSize - n) 0) ++ replicate (newSize - n) (replicate newSize 0)

def coppersmithWinograd : Nat → List (List F) → List (List F) → Except Fault (List (List F))
  | 0, _, _ => .error .diverges
  | fuel + 1, a, b => do
    let n := a.length
    if n = 1 then
      return [[(← entry a 0 0) * (← entry b 0 0)]]
    let newSize := if n % 2 = 0 then n else n + 1
    let a ← pad n newSize a
    let b ← pad n newSize b
    let mid := newSize / 2
    let (a11, a12) := ((a.take mid).map (take mid), (a.take mid).map (drop mid))
    let (a21, a22) := ((a.drop mid).map (take mid), (a.drop mid).map (drop mid))
    let (b11, b12) := ((b.take mid).map (take mid), (b.take mid).map (drop mid))
    let (b21, b22) := ((b.drop mid).map (take mid), (b.drop mid).map (drop mid))
    let s1 ← combine (· - ·) a21 a11
    let s2 ← combine (· + ·) a21 a22
    let s3 ← combine (· - ·) a12 a22
    let s4 ← combine (· - ·) b12 b11
    let s5 ← combine (· + ·) b11 b22
    let s6 ← combine (· - ·) b22 b21
    let p1 ← coppersmithWinograd fuel a11 b11
    let p2 ← coppersmithWinograd fuel s1 s5
    let p3 ← coppersmithWinograd fuel s2 b11
    let p4 ← coppersmithWinograd fuel a22 s6
    let p5 ← coppersmithWinograd fuel a11 s4
    let p6 ← coppersmithWinograd fuel s3 b22
    let p7 ← coppersmithWinograd fuel s2 s6
    let t1 ← combine (· + ·) p1 p2
    let t2 ← combine (· - ·) t1 p3
    let upper := zipWith (· ++ ·) (← combine (· + ·) p1 p5) (← combine (· + ·) t2 p6)
    let lower := zipWith (· ++ ·) (← combine (· + ·) t1 p4) (← combine (· + ·) t2 p7)
    return ((upper ++ lower).take n).map (take n)

/-- The sizes halve, so as many levels as rows are enough. -/
def generateDotProduct (a b : List (List F)) : Except Fault (List (List F)) := do
  if (← rowLength a) ≠ b.length then throw .logPanic
  if a.length ≤ 100 then
    let (columns, inner) := (← rowLength b, ← rowLength a)
    tabulate a.length columns fun x y =>
      (range inner).foldlM (fun sum ay => return sum + (← entry a x ay) * (← entry b ay y)) 0
  else coppersmithWinograd a.length a b

/-! ### Up to one hundred rows -/

theorem foldlM_sum {step : F → Nat → Except Fault F} {f : Fin k → F} (h : ∀ sum j, step sum j.1 = .ok (sum + f j)) :
    (range k).foldlM step 0 = .ok (∑ j, f j) := by
  induction k with
  | zero => rfl
  | succ k ih =>
    rw [range_succ, foldlM_append, ih fun sum j => h sum j.castSucc, Fin.sum_univ_castSucc]
    simpa using h _ (Fin.last k)

end Quilibrium.Rpm

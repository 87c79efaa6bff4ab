import Mathlib.Algebra.BigOperators.Group.List.Basic
import Mathlib.Algebra.Ring.Nat

/-!
# Reading from a source

A source gives out one item after another. Where every operation takes a number of items
from it and returns what it makes of them, a run of operations cuts the items of the source
into consecutive pieces, one for each operation.
-/

namespace LiteVision.Lib.Source

variable {σ α δ β : Type} {next : σ → α × σ} {op : σ → δ → β × σ} {width : δ → Nat}
  {cut : δ → List α → β} {s : σ}

def skip (next : σ → α × σ) : Nat → σ → σ
  | 0, s => s
  | n + 1, s => skip next n (next s).2

def take (next : σ → α × σ) : Nat → σ → List α
  | 0, _ => []
  | n + 1, s => (next s).1 :: take next n (next s).2

def run (op : σ → δ → β × σ) : σ → List δ → List β × σ
  | s, [] => ([], s)
  | s, d :: ds =>
    let first := op s d
    let rest := run op first.2 ds
    (first.1 :: rest.1, rest.2)

/-- An operation takes the next `width d` items and makes `cut d` of them. -/
def Cuts (next : σ → α × σ) (op : σ → δ → β × σ) (width : δ → Nat) (cut : δ → List α → β) : Prop :=
  ∀ s d, op s d = (cut d (take next (width d) s), skip next (width d) s)

@[simp] theorem skip_zero (s : σ) : skip next 0 s = s := rfl

@[simp] theorem skip_succ (n : Nat) (s : σ) : skip next (n + 1) s = skip next n (next s).2 := rfl

@[simp] theorem take_zero (s : σ) : take next 0 s = [] := rfl

@[simp] theorem take_succ (n : Nat) (s : σ) :
    take next (n + 1) s = (next s).1 :: take next n (next s).2 := rfl

@[simp] theorem length_take (n : Nat) (s : σ) : (take next n s).length = n := by
  induction n generalizing s with
  | zero => rfl
  | succ n ih => simp [ih]

theorem skip_add (m n : Nat) (s : σ) : skip next (m + n) s = skip next n (skip next m s) := by
  induction m generalizing s with
  | zero => simp
  | succ m ih => simp [Nat.succ_add, ih]

theorem take_add (m n : Nat) (s : σ) :
    take next (m + n) s = take next m s ++ take next n (skip next m s) := by
  induction m generalizing s with
  | zero => simp
  | succ m ih => simp [Nat.succ_add, ih]

theorem getElem?_take {i n : Nat} (hi : i < n) (s : σ) :
    (take next n s)[i]? = some (next (skip next i s)).1 := by
  induction i generalizing n s with
  | zero =>
    obtain ⟨n, rfl⟩ := Nat.exists_eq_succ_of_ne_zero (Nat.ne_of_gt hi)
    simp
  | succ i ih =>
    obtain ⟨n, rfl⟩ := Nat.exists_eq_succ_of_ne_zero (Nat.ne_zero_of_lt hi)
    simp [ih (Nat.lt_of_succ_lt_succ hi)]

theorem take_take (m n : Nat) (s : σ) : (take next (m + n) s).take m = take next m s := by
  simp [take_add, List.take_left']

theorem drop_take (m n : Nat) (s : σ) :
    (take next (m + n) s).drop m = take next n (skip next m s) := by
  simp [take_add, List.drop_left']

theorem Cuts.run_snd (h : Cuts next op width cut) (ds : List δ) (s : σ) :
    (run op s ds).2 = skip next (ds.map width).sum s := by
  induction ds generalizing s with
  | nil => rfl
  | cons d ds ih => simp [run, h s d, ih, skip_add]

theorem Cuts.run_fst (h : Cuts next op width cut) (before : List δ) (d : δ) (after : List δ)
    (s : σ) :
    (run op s (before ++ d :: after)).1[before.length]? =
      some (cut d (((take next ((before ++ d :: after).map width).sum s).drop
        (before.map width).sum).take (width d))) := by
  have hpiece : ((take next ((before ++ d :: after).map width).sum s).drop
      (before.map width).sum).take (width d) =
      take next (width d) (skip next (before.map width).sum s) := by
    simp only [List.map_append, List.map_cons, List.sum_append, List.sum_cons]
    rw [drop_take, take_take]
  rw [hpiece]
  clear hpiece
  induction before generalizing s with
  | nil => simp [run, h s d]
  | cons first before ih => simp [run, ih, h s first, skip_add]

end LiteVision.Lib.Source

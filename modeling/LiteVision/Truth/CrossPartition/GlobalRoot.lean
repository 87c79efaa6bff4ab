import LiteVision.Truth.CrossPartition

/-!
# The global root

`GlobalStateRoot::hash` sorts the partitions before it hashes them. `hash_eq_iff_same`: short of a
collision it tells the version and the roots, whatever the order of the hash map, and
whatever the order in which the roots were written.
-/

namespace LiteVision.Truth

open Lib

theorem exists_mapM {α β : Type} {f : α → Option β} {l : List α} (h : ∀ a ∈ l, ∃ b, f a = some b) :
    ∃ bs, l.mapM f = some bs ∧ ∀ b, b ∈ bs ↔ ∃ a ∈ l, f a = some b := by
  induction l with
  | nil => exact ⟨[], rfl, by simp⟩
  | cons a l ih =>
    obtain ⟨b, hb⟩ := h a List.mem_cons_self
    obtain ⟨bs, hbs, hmem⟩ := ih fun a' ha' => h a' (List.mem_cons_of_mem a ha')
    refine ⟨b :: bs, by simp [List.mapM_cons, hb, hbs], fun b' => ?_⟩
    simp only [List.mem_cons, hmem, exists_eq_or_imp, hb, Option.some.injEq]
    exact or_congr_left eq_comm

namespace GlobalStateRoot

variable (c : Crypto) (it it' : Map.Iteration PartitionId (Bytes 32)) {g g' : GlobalStateRoot}

def entry (key : PartitionId) (root : Bytes 32) : List UInt8 := (Bytes.ofU32 key).val ++ root.val

theorem entry_inj {key key' : PartitionId} {root root' : Bytes 32}
    (h : entry key root = entry key' root') : key = key' ∧ root = root' := by
  have happend : (Bytes.ofU32 key).val ++ root.val = (Bytes.ofU32 key').val ++ root'.val := h
  obtain ⟨hkey, hroot⟩ := Bytes.append_inj happend
  exact ⟨Bytes.ofU32_inj hkey, Subtype.ext hroot⟩

theorem exists_hashInput (g : GlobalStateRoot) :
    ∃ entries : List (List UInt8),
      g.hashInput it = some ((Bytes.ofU32 g.version).val ++ entries.flatten) ∧
      (∀ e ∈ entries, e.length = 36) ∧
      ∀ key root, entry key root ∈ entries ↔ g.partitionRoots.get key = some root := by
  have hkeys (key : PartitionId) :
      key ∈ ((it.entries g.partitionRoots).map Prod.fst).mergeSort ↔
        ∃ root, g.partitionRoots.get key = some root := by
    rw [(List.mergeSort_perm _ _).mem_iff, it.mem_map_fst, Map.mem_keys]
  obtain ⟨entries, hentries, hmem⟩ := exists_mapM
    (f := fun key => (g.partitionRoots.get key).map fun root => entry key root)
    (l := ((it.entries g.partitionRoots).map Prod.fst).mergeSort) fun key hkey => by
      obtain ⟨root, hroot⟩ := (hkeys key).mp hkey
      exact ⟨_, by rw [hroot, Option.map_some]⟩
  refine ⟨entries, ?_, fun e he => ?_, fun key root => ?_⟩
  · exact congrArg (Option.map fun entries => (Bytes.ofU32 g.version).val ++ entries.flatten)
      hentries
  · obtain ⟨key, -, hvalue⟩ := (hmem e).mp he
    obtain ⟨root, -, rfl⟩ := Option.map_eq_some_iff.mp hvalue
    rw [entry, List.length_append, Bytes.length_val, Bytes.length_val]
  · rw [hmem]
    constructor
    · rintro ⟨key', -, hvalue⟩
      obtain ⟨root', hroot', heq⟩ := Option.map_eq_some_iff.mp hvalue
      obtain ⟨rfl, rfl⟩ := entry_inj heq
      exact hroot'
    · intro hroot
      exact ⟨key, (hkeys key).mpr ⟨root, hroot⟩, by rw [hroot, Option.map_some]⟩

theorem flatten_inj {n : Nat} (hn : 0 < n) {as bs : List (List UInt8)}
    (ha : ∀ e ∈ as, e.length = n) (hb : ∀ e ∈ bs, e.length = n) (h : as.flatten = bs.flatten) :
    as = bs := by
  have hlengths (l : List (List UInt8)) (hl : ∀ e ∈ l, e.length = n) :
      l.map List.length = List.replicate l.length n := by
    refine List.eq_replicate_iff.mpr ⟨List.length_map _, fun k hk => ?_⟩
    obtain ⟨e, he, rfl⟩ := List.mem_map.mp hk
    exact hl e he
  have hcount : as.length = bs.length := by
    have hlength := congrArg List.length h
    rw [List.length_flatten, List.length_flatten, hlengths as ha, hlengths bs hb,
      List.sum_replicate, List.sum_replicate] at hlength
    exact Nat.eq_of_mul_eq_mul_right hn hlength
  refine List.eq_iff_flatten_eq.mpr ⟨h, ?_⟩
  rw [hlengths as ha, hlengths bs hb, hcount]

theorem hashInput_inj (h : g.hashInput it = g'.hashInput it') :
    g.version = g'.version ∧ g.partitionRoots = g'.partitionRoots := by
  obtain ⟨entries, hinput, hsize, hmem⟩ := exists_hashInput it g
  obtain ⟨entries', hinput', hsize', hmem'⟩ := exists_hashInput it' g'
  rw [hinput, hinput', Option.some.injEq] at h
  obtain ⟨hversion, hflatten⟩ := Bytes.append_inj h
  obtain rfl := flatten_inj (by decide) hsize hsize' hflatten
  refine ⟨Bytes.ofU32_inj hversion, Map.ext fun key => Option.ext fun root => ?_⟩
  exact (hmem key root).symm.trans (hmem' key root)

theorem pairwise_mergeSort (keys : List PartitionId) : keys.mergeSort.Pairwise (· ≤ ·) := by
  have hsorted : keys.mergeSort.Pairwise fun a b => decide (a ≤ b) = true :=
    List.pairwise_mergeSort (fun a b c hab hbc => by
      simp only [decide_eq_true_eq] at *
      exact UInt32.le_trans hab hbc)
      (fun a b => by simpa using UInt32.le_total a b) keys
  exact hsorted.imp of_decide_eq_true

theorem mergeSort_eq {keys keys' : List PartitionId} (hperm : keys.Perm keys')
    (hsorted : keys'.Pairwise (· ≤ ·)) : keys.mergeSort = keys' :=
  ((List.mergeSort_perm _ _).trans hperm).eq_of_pairwise
    (fun _ _ _ _ hab hba => UInt32.le_antisymm hab hba) (pairwise_mergeSort keys) hsorted

theorem hashInput_congr (g : GlobalStateRoot) : g.hashInput it = g.hashInput it' := by
  have hkeys : ((it.entries g.partitionRoots).map Prod.fst).mergeSort =
      ((it'.entries g.partitionRoots).map Prod.fst).mergeSort :=
    mergeSort_eq ((it.perm it' g.partitionRoots).trans (List.mergeSort_perm _ _).symm)
      (pairwise_mergeSort _)
  simp only [hashInput, hkeys]

def step (g : GlobalStateRoot) (update : PartitionId × Bytes 32) : GlobalStateRoot :=
  g.updatePartition update.1 update.2

theorem exec_perm {updates updates' : List (PartitionId × Bytes 32)} (hperm : updates.Perm updates')
    (hnodup : (updates.map Prod.fst).Nodup) (g : GlobalStateRoot) :
    Trace.exec step g updates = Trace.exec step g updates' := by
  induction hperm generalizing g with
  | nil => rfl
  | cons update _ ih => exact ih (List.nodup_cons.mp hnodup).2 _
  | swap a b l =>
    have hne : b.1 ≠ a.1 := fun heq => (List.nodup_cons.mp hnodup).1 (by simp [heq])
    have hswap : (g.step b).step a = (g.step a).step b := by
      simp only [step, updatePartition, GlobalStateRoot.mk.injEq, and_true]
      refine Map.ext fun key => ?_
      simp only [Map.get_insert]
      by_cases ha : key = a.1
      · simp [ha, hne.symm]
      · simp [ha]
    simp only [Trace.exec_cons, hswap]
  | trans hfirst _ ih ih' => exact (ih hnodup g).trans (ih' ((hfirst.map _).nodup_iff.mp hnodup) g)

/-- Short of a collision the hashes are equal just when version and roots are; the order of
the hash maps does not matter, and neither does that of the updates. -/
theorem hash_eq_iff_same (c : Crypto) (it it' : Map.Iteration PartitionId (Bytes 32))
    (g g' : GlobalStateRoot)
    (hinj : Set.InjOn c.blake3 {input | g.hashInput it = some input ∨ g'.hashInput it' = some input}) :
    (∃ root, g.hash c it = some root) ∧
      (g.hash c it = g'.hash c it' ↔
        g.version = g'.version ∧ g.partitionRoots = g'.partitionRoots) ∧
      ∀ updates updates' : List (PartitionId × Bytes 32), updates.Perm updates' →
        (updates.map Prod.fst).Nodup →
        (Trace.exec step g updates).hash c it = (Trace.exec step g updates').hash c it' := by
  obtain ⟨entries, hinput, -⟩ := exists_hashInput it g
  obtain ⟨entries', hinput', -⟩ := exists_hashInput it' g'
  refine ⟨⟨_, by rw [hash, hinput, Option.map_some]⟩, ⟨fun heq => ?_, ?_⟩, ?_⟩
  · rw [hash, hash, hinput, hinput', Option.map_some, Option.map_some, Option.some.injEq] at heq
    refine hashInput_inj it it' ?_
    rw [hinput, hinput', hinj (.inl hinput) (.inr hinput') heq]
  · rintro ⟨hversion, hroots⟩
    have hsame : g = g' := by
      cases g
      cases g'
      cases hversion
      cases hroots
      rfl
    rw [hsame, hash, hash, hashInput_congr it it']
  · intro updates updates' hperm hnodup
    rw [exec_perm hperm hnodup, hash, hash, hashInput_congr it it']

/-- Two partitions whose roots come in two orders, and other roots for them. -/
theorem hash_eq_iff_same_two :
    let _ : LinearOrder UInt32 := .lift' UInt32.toNat fun _ _ => UInt32.toNat_inj.mp
    let it : Map.Iteration PartitionId (Bytes 32) := .ascending
    let c : Crypto :=
      { blake3 := fun input => (Bytes.slice? input 44 32).getD (.fill 32 0)
        ed25519Verify := fun _ _ _ => true }
    let updates (root : Bytes 32) := [(1, .fill 32 1), (2, root)]
    let g (root : Bytes 32) := Trace.exec step new (updates root)
    (Trace.exec step new (updates (.fill 32 2)).reverse).hash c it = (g (.fill 32 2)).hash c it ∧
      (g (.fill 32 2)).hash c it ≠ (g (.fill 32 3)).hash c it := by
  intro _ it c updates g
  let input (root : Bytes 32) : List UInt8 :=
    (Bytes.ofU32 0).val ++ [entry 1 (.fill 32 1), entry 2 root].flatten
  have hkeys (root : Bytes 32) :
      ((it.entries (g root).partitionRoots).map Prod.fst).mergeSort = [1, 2] := by
    refine mergeSort_eq ((List.perm_ext_iff_of_nodup (it.nodup _) (by decide)).mpr ?_) (by decide)
    intro key
    simp only [it.mem_map_fst, g, updates, Trace.exec_cons, Trace.exec_nil, step, updatePartition,
      new, Map.keys_insert, Map.keys_empty, Finset.mem_insert, Finset.notMem_empty, List.mem_cons,
      List.not_mem_nil]
    tauto
  have hinput (root : Bytes 32) : (g root).hashInput it = some (input root) := by
    have hfirst : (g root).partitionRoots.get 1 = some (.fill 32 1) := rfl
    have hsecond : (g root).partitionRoots.get 2 = some root := rfl
    simp only [hashInput, hkeys, List.mapM_cons, List.mapM_nil, hfirst, hsecond]
    rfl
  have hinj : Set.InjOn c.blake3
      {x | (g (.fill 32 2)).hashInput it = some x ∨ (g (.fill 32 3)).hashInput it = some x} := by
    intro x hx y hy heq
    simp only [hinput, Set.mem_ofPred_eq, Option.some.injEq] at hx hy
    rcases hx with rfl | rfl <;> rcases hy with rfl | rfl
    · rfl
    · exact absurd heq (by decide)
    · exact absurd heq (by decide)
    · rfl
  have hnew : Set.InjOn c.blake3 {x | new.hashInput it = some x ∨ new.hashInput it = some x} := by
    intro x hx y hy _
    simp only [or_self, Set.mem_ofPred_eq] at hx hy
    exact Option.some.inj (hx.symm.trans hy)
  refine ⟨(hash_eq_iff_same c it it new new hnew).2.2 _ _ (List.reverse_perm _) (by decide), ?_⟩
  intro heq
  exact absurd ((hash_eq_iff_same c it it _ _ hinj).2.1.mp heq).2 (by decide)

end GlobalStateRoot

end LiteVision.Truth

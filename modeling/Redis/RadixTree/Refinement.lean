import Redis.Library.Simulation
import Redis.RadixTree.Remove

/-! The radix tree is a finite map from byte strings. -/
namespace Redis.RadixTree

open ByteBuffer Simulation Function List

variable {V : Type}

inductive RaxOp (V : Type) where
  | insert (s : Bytes) (data : Option V)
  | tryInsert (s : Bytes) (data : Option V)
  | remove (s : Bytes)

/-- A key that is inserted fits in one node. -/
def RaxOp.Short : RaxOp V → Prop
  | .insert s _ => s.length < raxNodeMaxSize
  | .tryInsert s _ => s.length < raxNodeMaxSize
  | .remove _ => True

/-- A call, with its return value and what it stores in `*old`. -/
def raxStep (rax : Rax V) : RaxOp V → Rax V × (Bool × Option (Option V))
  | .insert s data => raxInsert rax s data
  | .tryInsert s data => raxTryInsert rax s data
  | .remove s => raxRemove rax s

/-- The call on a map; a key without a value is mapped to `some none`. -/
def mapStep (m : Bytes → Option (Option V)) :
    RaxOp V → (Bytes → Option (Option V)) × (Bool × Option (Option V))
  | .insert s data => (update m s (some data), (m s).isNone, m s)
  | .tryInsert s data =>
    (if (m s).isNone then update m s (some data) else m, (m s).isNone, m s)
  | .remove s => (update m s none, (m s).isSome, m s)

structure Rax.Inv (rax : Rax V) : Prop where
  wf : rax.head.Wf
  numele : rax.numele = rax.head.entries.length
  numnodes : rax.numnodes = rax.head.nodes
  short : ∀ e ∈ rax.head.entries, e.1.length < raxNodeMaxSize

structure Represents (rax : Rax V) (m : Bytes → Option (Option V)) : Prop where
  inv : rax.Inv
  mem : ∀ s v, (s, v) ∈ rax.head.entries ↔ m s = some v

section Keys

variable {n : Node V} {s : Bytes} {v : Option V} {rest : List (Entry V)}

theorem Node.Wf.keys_nodup (h : n.Wf) : (n.entries.map Prod.fst).Nodup := by
  rw [List.Nodup, pairwise_map]
  apply h.sorted.imp
  intro a b hlt heq
  rw [heq] at hlt
  exact List.lt_irrefl _ hlt

/-- Without its entry, a key is not there. -/
theorem mem_rest (hwf : n.Wf) (hperm : n.entries.Perm ((s, v) :: rest)) (k : Bytes) (w : Option V) :
    (k, w) ∈ rest ↔ k ≠ s ∧ (k, w) ∈ n.entries := by
  have hnodup := (hperm.map Prod.fst).nodup_iff.mp hwf.keys_nodup
  rw [map_cons, nodup_cons] at hnodup
  rw [hperm.mem_iff, mem_cons]
  constructor
  · intro hmem
    refine ⟨?_, .inr hmem⟩
    rintro rfl
    exact hnodup.1 (mem_map.mpr ⟨_, hmem, rfl⟩)
  · rintro ⟨hne, heq | hmem⟩
    · exact absurd (congrArg Prod.fst heq) hne
    · exact hmem

end Keys

section Step

variable {rax rax' : Rax V} {m : Bytes → Option (Option V)} {s : Bytes} {v data : Option V}

variable (h : Represents rax m)
include h

theorem Represents.absent (hm : m s = none) (v : Option V) : (s, v) ∉ rax.head.entries := by
  rw [h.mem, hm]
  simp

theorem Represents.gains (hm : m s = none)
    (hs : s.length < raxNodeMaxSize) (hg : rax.Gains rax' s data) :
    Represents rax' (update m s (some data)) := by
  refine ⟨⟨hg.wf, ?_, ?_, ?_⟩, ?_⟩
  · rw [hg.numele, hg.entries.length_eq, h.inv.numele]
    rfl
  · have hnodes := hg.nodes
    rw [h.inv.numnodes] at hnodes
    omega
  · intro e he
    rcases mem_cons.mp (hg.entries.mem_iff.mp he) with rfl | he
    · exact hs
    · exact h.inv.short e he
  · intro k w
    rw [hg.entries.mem_iff, mem_cons, h.mem, update_apply]
    by_cases hk : k = s
    · subst hk
      simp [hm, eq_comm]
    · simp [hk]

theorem Represents.loses (hl : rax.Loses rax' s v) : Represents rax' (update m s none) := by
  have hmem := mem_rest h.inv.wf hl.entries
  refine ⟨⟨hl.wf, ?_, hl.nodes, ?_⟩, ?_⟩
  · rw [hl.numele, h.inv.numele, hl.entries.length_eq]
    rfl
  · intro e he
    exact h.inv.short e ((hmem e.1 e.2).mp he).2
  · intro k w
    rw [hmem, h.mem, update_apply]
    by_cases hk : k = s <;> simp [hk]

/-- The value of a key is replaced, or kept. -/
theorem Represents.overwrite (hm : m s = some v) {n : Node V} {d : Option V}
    {rest : List (Entry V)} (hwf : n.Wf) (hnodes : n.nodes = rax.head.nodes)
    (hold : rax.head.entries.Perm ((s, v) :: rest)) (hnew : n.entries.Perm ((s, d) :: rest)) :
    Represents { rax with head := n } (update m s (some d)) := by
  have hmem := mem_rest h.inv.wf hold
  refine ⟨⟨hwf, ?_, ?_, ?_⟩, ?_⟩
  · rw [h.inv.numele, hold.length_eq, hnew.length_eq]
    rfl
  · exact h.inv.numnodes.trans hnodes.symm
  · intro e he
    rcases mem_cons.mp (hnew.mem_iff.mp he) with rfl | he
    · exact h.inv.short (s, v) ((h.mem s v).mpr hm)
    · exact h.inv.short e ((hmem e.1 e.2).mp he).2
  · intro k w
    rw [hnew.mem_iff, mem_cons, hmem, h.mem, update_apply]
    by_cases hk : k = s
    · subst hk
      simp [eq_comm]
    · simp [hk]

/-- Both insertions: what they do to the map depends on whether the key is there. -/
theorem raxGenericInsert_refines (hs : s.length < raxNodeMaxSize) (overwrite : Bool) :
    Represents (raxGenericInsert rax s data overwrite).1
        (if overwrite ∨ (m s).isNone then update m s (some data) else m) ∧
      (raxGenericInsert rax s data overwrite).2 = ((m s).isNone, m s) := by
  cases hm : m s with
  | none =>
    obtain ⟨rax', hres, hg⟩ := raxGenericInsert_absent data overwrite h.inv.wf hs (h.absent hm)
    rw [hres]
    simpa using h.gains hm hs hg
  | some v =>
    obtain ⟨n, rest, hres, hwf, hnodes, hold, hnew⟩ := raxGenericInsert_present data overwrite
      h.inv.wf ((h.mem s v).mpr hm)
    rw [hres]
    have hrep := h.overwrite hm hwf hnodes hold hnew
    cases overwrite with
    | true => simpa using hrep
    | false =>
      have hsame : update m s (some v) = m := by rw [← hm, update_eq_self]
      simpa [hsame] using hrep

theorem raxRemove_refines : Represents (raxRemove rax s).1 (update m s none) ∧
    (raxRemove rax s).2 = ((m s).isSome, m s) := by
  cases hm : m s with
  | none =>
    rw [raxRemove_absent h.inv.wf (h.absent hm)]
    have hsame : update m s none = m := by rw [← hm, update_eq_self]
    simpa [hsame] using h
  | some v =>
    obtain ⟨rax', hres, hr⟩ := raxRemove_removal h.inv.wf h.inv.numnodes ((h.mem s v).mpr hm)
    have hl := hr.loses fun n stack _ hc => chainFits_of_short hc.frames hc.wf hc.link
      fun e he => h.inv.short e (hc.entries.mem_iff.mpr (mem_cons_of_mem _ he))
    rw [hres]
    simpa using h.loses hl

theorem raxStep_refines {op : RaxOp V} (hop : op.Short) :
    Represents (raxStep rax op).1 (mapStep m op).1 ∧ (raxStep rax op).2 = (mapStep m op).2 := by
  cases op with
  | insert s data => simpa [raxStep, raxInsert, mapStep] using raxGenericInsert_refines h hop true
  | tryInsert s data =>
    simpa [raxStep, raxTryInsert, mapStep] using raxGenericInsert_refines h hop false
  | remove s => exact raxRemove_refines h

end Step

theorem represents_raxNew : Represents (raxNew : Rax V) fun _ => none := by
  refine ⟨⟨raxNewNode_wf, ?_, raxNewNode_nodes.symm, ?_⟩, ?_⟩ <;>
    simp [raxNew, raxNewNode_entries]

section Run

variable {rax : Rax V} {m : Bytes → Option (Option V)}

theorem Represents.raxFind_eq (h : Represents rax m) (s : Bytes) : raxFind rax s = m s := by
  apply Option.ext
  intro v
  rw [raxFind_eq_some h.inv.wf, h.mem]

/-- `numele` counts the keys. -/
theorem Represents.numele_eq (h : Represents rax m) :
    {s | m s ≠ none}.Finite ∧ rax.numele = {s | m s ≠ none}.ncard := by
  have hkeys : {s | m s ≠ none} = ((rax.head.entries.map Prod.fst).toFinset : Set Bytes) := by
    ext s
    rw [Set.mem_ofPred_eq, Option.ne_none_iff_exists', coe_toFinset, Set.mem_ofPred_eq,
      mem_map]
    constructor
    · rintro ⟨v, hv⟩
      exact ⟨(s, v), (h.mem s v).mpr hv, rfl⟩
    · rintro ⟨⟨k, v⟩, hmem, rfl⟩
      exact ⟨v, (h.mem k v).mp hmem⟩
  rw [hkeys, Set.ncard_coe_finset, toFinset_card_of_nodup h.inv.wf.keys_nodup, length_map]
  exact ⟨Finset.finite_toSet _, h.inv.numele⟩

theorem run_represents {ops : List (RaxOp V)} (hshort : ∀ op ∈ ops, op.Short) :
    Represents (run raxStep raxNew ops).1 (run mapStep (fun _ => none) ops).1 ∧
      (run raxStep raxNew ops).2 = (run mapStep (fun _ => none) ops).2 := by
  have hstep : ∀ (rax : Rax V) m op, Represents rax m → op.Short →
      Represents (raxStep rax op).1 (mapStep m op).1 ∧ (raxStep rax op).2 = (mapStep m op).2 :=
    fun _ _ _ h hop => raxStep_refines h hop
  obtain ⟨hrep, hanswers⟩ := run_simulates hstep represents_raxNew (RunOk.of_forall hshort _)
  exact ⟨hrep, List.forall₂_eq_eq_eq ▸ hanswers⟩

end Run

/-- Any run of insertions and removals leaves a well-formed tree that answers, is
searched and is counted as the finite map is. -/
theorem radix_tree_refines_map (ops : List (RaxOp V)) (hshort : ∀ op ∈ ops, op.Short) :
    let rax := (run raxStep raxNew ops).1
    let m := (run mapStep (fun _ => none) ops).1
    (∀ s, raxFind rax s = m s) ∧
      (run raxStep raxNew ops).2 = (run mapStep (fun _ => none) ops).2 ∧
      {s | m s ≠ none}.Finite ∧ rax.numele = {s | m s ≠ none}.ncard ∧
      rax.numnodes = rax.head.nodes ∧ rax.head.Wf := by
  obtain ⟨hrep, hanswers⟩ := run_represents hshort
  obtain ⟨hfinite, hnumele⟩ := hrep.numele_eq
  exact ⟨hrep.raxFind_eq, hanswers, hfinite, hnumele, hrep.inv.numnodes, hrep.inv.wf⟩

/-- The two scans agree, and the other keys are found as before, if and only if the chain fits in a
node or does not begin to. -/
theorem raxRemove_passes_agree_iff {rax : Rax V} (hwf : rax.head.Wf)
    (hnodes : rax.numnodes = rax.head.nodes) (s : Bytes) :
    ((∀ h stack, trycompress rax s = some (h, stack) → PassesAgree (seekStart h stack).1) ∧
      ∀ k, k ≠ s → raxFind (raxRemove rax s).1 k = raxFind rax k) ↔
      ∀ h stack, trycompress rax s = some (h, stack) → ChainFits (seekStart h stack).1 := by
  by_cases hmem : ∃ v, (s, v) ∈ rax.head.entries
  · obtain ⟨v, hmem⟩ := hmem
    obtain ⟨rax', hres, hr⟩ := raxRemove_removal hwf hnodes hmem
    have hiff : ∀ h stack, trycompress rax s = some (h, stack) →
        (PassesAgree (seekStart h stack).1 ↔ ChainFits (seekStart h stack).1) := by
      intro h stack hstart
      rw [hstart] at hr
      have hc := hr.compressible
      obtain ⟨_, hstart, hends, _⟩ := seekStart_spec hc.frames hc.wf hc.link
      exact passesAgree_iff hstart hends
    constructor
    · rintro ⟨hagree, _⟩ h stack hstart
      exact (hiff h stack hstart).mp (hagree h stack hstart)
    · intro hfits
      refine ⟨fun h stack hstart => (hiff h stack hstart).mpr (hfits h stack hstart), ?_⟩
      intro k hk
      have hloses := hr.loses fun h stack hstart _ => hfits h stack hstart
      rw [hres]
      apply Option.ext
      intro w
      rw [raxFind_eq_some hloses.wf, raxFind_eq_some hwf, mem_rest hwf hloses.entries]
      exact and_iff_right hk
  · rw [not_exists] at hmem
    have hnone := trycompress_absent hwf hmem
    simp [raxRemove_absent hwf hmem, hnone]

/-- The second key ends inside the node of the first, the third leaves it in the
middle, and removing that one joins the nodes again. -/
def splittingOps : List (RaxOp Nat) :=
  [.insert [114, 111, 109, 97, 110, 101] (some 1), .insert [114, 111, 109] none,
    .insert [114, 117, 98] (some 2), .tryInsert [114, 111, 109, 97, 110, 101] (some 3),
    .remove [114, 117, 98]]

theorem splittingOps_short : ∀ op ∈ splittingOps, op.Short := by
  simp [splittingOps, RaxOp.Short, raxNodeMaxSize]

theorem radix_tree_refines_map_splitting :
    raxFind (run raxStep raxNew splittingOps).1 [114, 111, 109] = some none ∧
      (run raxStep raxNew splittingOps).2 =
        [(true, none), (true, none), (true, none), (false, some (some 1)),
          (true, some (some 2))] := by
  obtain ⟨hfind, hanswers, _⟩ := radix_tree_refines_map splittingOps splittingOps_short
  exact ⟨(hfind _).trans (by decide), hanswers.trans (by decide)⟩

/-- The last removal of these operations: both scans go through the three nodes of `rom`. -/
theorem raxRemove_passes_agree_splitting :
    let rax := (run raxStep raxNew splittingOps.dropLast).1
    (∃ h stack, trycompress rax [114, 117, 98] = some (h, stack) ∧
      chainSizes (seekStart h stack).1 = [1, 1, 1] ∧ PassesAgree (seekStart h stack).1) ∧
    raxFind (raxRemove rax [114, 117, 98]).1 [114, 111, 109, 97, 110, 101] = some (some 1) := by
  intro rax
  have hinv := (run_represents fun op hop => splittingOps_short op (mem_of_mem_dropLast hop)).1.inv
  obtain ⟨⟨h, stack⟩, hstart⟩ : ∃ r, trycompress rax [114, 117, 98] = some r := ⟨_, rfl⟩
  have hsizes : chainSizes (seekStart h stack).1 = [1, 1, 1] := by
    cases hstart
    rfl
  obtain ⟨hagree, hfind⟩ := (raxRemove_passes_agree_iff hinv.wf hinv.numnodes [114, 117, 98]).mpr (by
    intro h' stack' hstart'
    cases hstart.symm.trans hstart'
    rw [ChainFits, hsizes]
    decide)
  exact ⟨⟨h, stack, hstart, hsizes, hagree h stack hstart⟩, hfind _ (by decide)⟩

end Redis.RadixTree

import Redis.RadixTree.Refinement
import Redis.RadixTree.Traversal

/-! A seek stops at the key it looks for. The walk ends at a node from which the sought
string would go on; it cuts the entries of the tree at one of the edges of that node. -/
namespace Redis.RadixTree

open ByteBuffer List Bool

variable {V : Type} {root : Node V}
variable {k : UInt8} {n : Node V} {ks : Bytes} {e : Entry V} {c : Cursor V} {stack : List (Frame V)}

section Walk

theorem linked_getD (h : Linked root n stack) {i : Nat} (hi : i < n.children.length) :
    Linked root (n.children.getD i raxNewNode) (⟨n, i⟩ :: stack) := by
  refine .child h ?_
  rw [getD_eq_getElem _ _ hi, getElem?_eq_getElem hi]

theorem lowWalk_linked (hroot : root.Wf) (h : Linked root n stack) (fuel : Nat) (s : Bytes) :
    Linked root (lowWalk fuel n s stack).stop (lowWalk fuel n s stack).stack := by
  induction fuel generalizing n s stack with
  | zero => exact h
  | succ fuel ih =>
    have hwf := h.wf hroot
    cases s with
    | nil => exact h
    | cons c cs =>
      cases hc : n.iscompr with
      | true =>
        obtain ⟨u, d', s', _, _, _, hstep⟩ := lowWalk_compr fuel c cs stack hwf hc
        have hone := (hwf.shape.compr hc).2
        rw [hstep]
        split_ifs
        · exact ih (linked_getD h (by omega)) s'
        · exact h
      | false =>
        rw [lowWalk_plain hc]
        split_ifs with hmem
        · have hidx := idxOf_lt_length_of_mem hmem
          rw [(hwf.shape.plain hc).1] at hidx
          exact ih (linked_getD h hidx) cs
        · exact h

theorem spell_eq_path (hstack : ∀ f ∈ stack, f.Ok) : spell stack = path stack := by
  induction stack with
  | nil => rfl
  | cons f stack ih =>
    obtain ⟨n, i⟩ := f
    obtain ⟨hok, hrest⟩ := forall_mem_cons.mp hstack
    rw [spell, path, ih hrest]
    cases hc : n.iscompr with
    | true => rw [if_pos rfl, (label_compr hc hok.1.shape hok.2).1]
    | false => rw [if_neg (by decide), label_plain hc hok.1.shape hok.2]

/-- The cursor at the node where a walk stopped. -/
def Walk.cursor (w : Walk V) : Cursor V := ⟨spell w.stack, w.stop, w.stack⟩

theorem raxLowWalk_on {rax : Rax V} (hwf : rax.head.Wf) (ele : Bytes) :
    (raxLowWalk rax ele).cursor.On rax.head := by
  have hlinked := lowWalk_linked hwf .top (ele.length + 1) ele
  exact ⟨hlinked, spell_eq_path (hlinked.frames hwf)⟩

end Walk

section Cut

variable {inner : Bytes} {i : Nat}

/-- Among the keys below a node, the string falls in front of the edge with an index. -/
structure Falls (n : Node V) (inner : Bytes) (i : Nat) : Prop where
  le : i ≤ n.children.length
  front : ∀ l d, (l, d) ∈ n.edges.take i → ∀ t, l ++ t < inner
  back : ∀ l d, (l, d) ∈ n.edges.drop i → ∀ t, inner < l ++ t

variable (h : c.On root) (hroot : root.Wf) (hfalls : Falls c.node inner i)
include h hroot hfalls

theorem Cursor.On.lt_onward (he : e ∈ c.onward i) : c.key ++ inner < e.1 := by
  rcases mem_append.mp he with hedge | hafter
  · obtain ⟨e', he', rfl⟩ := mem_map.mp hedge
    obtain ⟨⟨l, d⟩, hmem, hbranch⟩ := mem_flatMap.mp he'
    obtain ⟨e'', _, rfl⟩ := mem_map.mp hbranch
    exact append_left_lt (hfalls.back l d hmem e''.1)
  · rw [h.key]
    exact lt_after (h.linked.frames hroot) hafter inner

omit hfalls in
theorem Cursor.On.before_lt (he : e ∈ before c.stack) : e.1 < c.key ++ inner := by
  rw [h.key]
  exact RadixTree.before_lt (h.linked.frames hroot) he inner

theorem Cursor.On.upTo_lt (hinner : inner ≠ []) (he : e ∈ c.upTo i) : e.1 < c.key ++ inner := by
  rw [Cursor.upTo, mem_append, mem_append] at he
  rcases he with (hbefore | hself) | hedge
  · exact h.before_lt hroot hbefore
  · obtain ⟨e', he', rfl⟩ := mem_map.mp hself
    obtain ⟨x, inner', rfl⟩ := exists_cons_of_ne_nil hinner
    rw [addPrefix, own_fst he']
    exact append_left_lt (nil_lt_cons _ _)
  · obtain ⟨e', he', rfl⟩ := mem_map.mp hedge
    obtain ⟨⟨l, d⟩, hmem, hbranch⟩ := mem_flatMap.mp he'
    obtain ⟨e'', _, rfl⟩ := mem_map.mp hbranch
    exact append_left_lt (hfalls.front l d hmem e''.1)

/-- If the string ends at the node, its own key is not behind the string either. -/
theorem Cursor.On.not_lt_upTo (he : e ∈ c.upTo i) : ¬ c.key ++ inner < e.1 := by
  by_cases hinner : inner = []
  · subst hinner
    rw [Cursor.upTo, mem_append, mem_append] at he
    rcases he with (hbefore | hself) | hedge
    · exact List.lt_asymm (h.before_lt hroot hbefore)
    · obtain ⟨e', he', rfl⟩ := mem_map.mp hself
      rw [addPrefix, own_fst he']
      exact List.lt_irrefl _
    · obtain ⟨e', he', rfl⟩ := mem_map.mp hedge
      obtain ⟨⟨l, d⟩, hmem, _⟩ := mem_flatMap.mp he'
      exact absurd (hfalls.front l d hmem []) (not_lt_nil _)
  · exact List.lt_asymm (h.upTo_lt hroot hfalls hinner he)

end Cut

section Falls

variable {w : Walk V}

/-- The string ends at the node: every edge is behind it. -/
theorem falls_nil (hshape : n.Shape) : Falls n [] 0 := by
  refine ⟨Nat.zero_le _, fun l d hmem => by simp at hmem, fun l d hmem t => ?_⟩
  have hl := hshape.label_ne_nil (of_mem_zip hmem).1
  obtain ⟨x, l', rfl⟩ := exists_cons_of_ne_nil hl
  exact nil_lt_cons _ _

variable (hs : w.Stopped)
include hs

section

variable (hc : w.stop.iscompr = true)
include hc

/-- The bytes of a compressed node around the place where the walk stopped. -/
theorem Walk.Stopped.data_split : ∃ x tail, w.stop.data = w.stop.data.take w.splitpos ++ x :: tail ∧
      w.stop.data.getD w.splitpos 0 = x := by
  have hinside := hs.inside hc
  refine ⟨w.stop.data[w.splitpos], w.stop.data.drop (w.splitpos + 1), ?_, ?_⟩
  · rw [← drop_eq_getElem_cons hinside, take_append_drop]
  · exact getD_eq_getElem _ _ hinside

/-- The string ends inside a compressed node, or its next byte is smaller than that of the
node. -/
theorem falls_front (hlt : ∀ k ks, w.rest = k :: ks → k < w.stop.data.getD w.splitpos 0) :
    Falls w.stop w.inner 0 := by
  refine ⟨Nat.zero_le _, fun l d hmem => by simp at hmem, fun l d hmem t => ?_⟩
  obtain ⟨x, tail, hdata, hx⟩ := hs.data_split hc
  rw [edges_compr hc hmem, hdata, Walk.inner, append_assoc]
  apply append_left_lt
  cases hrest : w.rest with
  | nil => exact nil_lt_cons _ _
  | cons k ks =>
    rw [← hx]
    exact cons_lt_cons_iff.mpr (.inl (hlt k ks hrest))

theorem falls_back (hshape : w.stop.Shape)
    (hrest : w.rest = k :: ks) (hgt : w.stop.data.getD w.splitpos 0 < k) :
    Falls w.stop w.inner 1 := by
  have hone := (hshape.compr hc).2
  refine ⟨by omega, fun l d hmem t => ?_, fun l d hmem => ?_⟩
  · obtain ⟨x, tail, hdata, hx⟩ := hs.data_split hc
    rw [edges_compr hc (mem_of_mem_take hmem), hdata, Walk.inner, hrest, append_assoc]
    apply append_left_lt
    rw [← hx]
    exact cons_lt_cons_iff.mpr (.inl hgt)
  · have hlen : w.stop.edges.length ≤ 1 := by
      rw [Node.edges, length_zip]
      omega
    rw [drop_eq_nil_of_le hlen] at hmem
    cases hmem

omit hc in
/-- The whole string was walked along, to a node or into one. -/
theorem falls_ended (hshape : w.stop.Shape) (hrest : w.rest = []) : Falls w.stop w.inner 0 := by
  cases hc : w.stop.iscompr with
  | true => exact falls_front hs hc (by simp [hrest])
  | false =>
    have hinner : w.inner = [] := by
      rw [Walk.inner, hs.normal hc, hrest]
      rfl
    rw [hinner]
    exact falls_nil hshape

/-- The byte of a compressed node where the walk stopped is not the next one of the string. -/
theorem Walk.Stopped.node_char (hrest : w.rest = k :: ks) :
    w.stop.data.getD w.splitpos 0 < k ∨ k < w.stop.data.getD w.splitpos 0 := by
  have hinside := hs.inside hc
  have hmismatch := hs.mismatch k ks hrest
  rw [if_pos hc, getElem?_eq_getElem hinside] at hmismatch
  have hne : w.stop.data[w.splitpos] ≠ k := fun heq => hmismatch (congrArg some heq)
  rw [getD_eq_getElem _ _ hinside]
  by_cases hlt : w.stop.data[w.splitpos] < k
  · exact .inl hlt
  · exact .inr (UInt8.lt_of_le_of_ne (UInt8.not_lt.mp hlt) hne.symm)

end

omit hs in
/-- The next byte is on no edge: the edges in front of it are the smaller ones. -/
theorem edge_split {data : Bytes} (hsorted : data.Pairwise (· < ·)) (hk : k ∉ data) :
    (∀ x ∈ data.take (data.findIdx fun x => x > k), x < k) ∧
      ∀ x ∈ data.drop (data.findIdx fun x => x > k), k < x := by
  have hpair := pairwise_iff_getElem.mp hsorted
  constructor
  · intro x hx
    obtain ⟨j, hj, rfl⟩ := mem_take_iff_getElem.mp hx
    have hnot : ¬ k < data[j] := by simpa using not_of_lt_findIdx (lt_min_iff.mp hj).1
    refine UInt8.lt_of_le_of_ne (UInt8.not_lt.mp hnot) ?_
    intro heq
    exact hk (heq ▸ getElem_mem _)
  · intro x hx
    obtain ⟨j, hj, rfl⟩ := mem_drop_iff_getElem.mp hx
    have hlt : (data.findIdx fun x => x > k) < data.length := by omega
    have hfirst : k < data[data.findIdx fun x => x > k] := by
      simpa using findIdx_getElem (w := hlt)
    rcases Nat.eq_zero_or_pos j with rfl | hpos
    · simpa using hfirst
    · exact UInt8.lt_trans hfirst (hpair _ _ hlt (by omega) (by omega))

theorem falls_plain (hc : w.stop.iscompr = false) (hshape : w.stop.Shape)
    (hrest : w.rest = k :: ks) : Falls w.stop w.inner (w.stop.data.findIdx fun x => x > k) := by
  obtain ⟨hlen, hsorted⟩ := hshape.plain hc
  have hk : k ∉ w.stop.data := by
    have hmismatch := hs.mismatch k ks hrest
    rwa [if_neg (by simp [hc])] at hmismatch
  have hinner : w.inner = k :: ks := by
    rw [Walk.inner, hs.normal hc, hrest]
    rfl
  have hlabels : w.stop.labels = w.stop.data.map fun b => [b] := by simp [Node.labels, hc]
  obtain ⟨hfront, hback⟩ := edge_split hsorted hk
  rw [hinner]
  refine ⟨hlen ▸ findIdx_le_length, fun l d hmem t => ?_, fun l d hmem t => ?_⟩
  · rw [Node.edges, hlabels, zip_eq_zipWith, take_zipWith, ← zip_eq_zipWith,
      ← map_take] at hmem
    obtain ⟨x, hx, rfl⟩ := mem_map.mp (of_mem_zip hmem).1
    exact cons_lt_cons_iff.mpr (.inl (hfront x hx))
  · rw [Node.edges, hlabels, zip_eq_zipWith, drop_zipWith, ← zip_eq_zipWith,
      ← map_drop] at hmem
    obtain ⟨x, hx, rfl⟩ := mem_map.mp (of_mem_zip hmem).1
    exact cons_lt_cons_iff.mpr (.inl (hback x hx))

end Falls

section Around

variable {rax : Rax V} {it : Iterator V}

/-- The iterator stands at a cursor, or at the end. -/
def Iterator.Arrived (it : Iterator V) : Option (Cursor V) → Prop
  | none => it.eof = true
  | some d => it.eof = false ∧ it.cur = d ∧ it.data = raxGetData d.node

theorem Iterator.arrived_arrive (heof : it.eof = false) (r : Option (Cursor V)) :
    (it.arrive r).Arrived r := by
  cases r with
  | none => exact rfl
  | some d => exact ⟨heof, rfl, rfl⟩

theorem nextNode_noup (c : Cursor V) : nextNode true c = nextBranch true c := by simp [nextNode]

theorem bytes_compr (hc : n.iscompr = true) :
    n.data.length = if n.iscompr then n.data.length else 1 := by
  rw [if_pos hc]

theorem bytes_plain (hc : n.iscompr = false) (k : UInt8) :
    [k].length = if n.iscompr then n.data.length else 1 := by
  rw [hc]
  rfl

/-- A search forward arrives at the first key behind the place where the string falls. -/
def Walk.SeeksNext (w : Walk V) (root : Node V) (it : Iterator V) : Prop :=
  ∃ r, it.Arrived r ∧ ∃ i, Falls w.stop w.inner i ∧ Reaches root (w.cursor.onward i) r

/-- A search back arrives at the last key in front of it. The key of the node itself is not
in front of a string that ends at the node. -/
def Walk.SeeksPrev (w : Walk V) (root : Node V) (it : Iterator V) : Prop :=
  ∃ r, it.Arrived r ∧ ((w.inner = [] ∧ ReachesBack root (before w.stack) r) ∨
    (w.inner ≠ [] ∧ ∃ i, Falls w.stop w.inner i ∧ ReachesBack root (w.cursor.upTo i) r))

/-- The searches from the node where a walk stopped. -/
abbrev Walk.Seeks (w : Walk V) (rax : Rax V) (it : Iterator V) : Prop :=
  w.SeeksNext rax.head (seekAround rax it false true w) ∧
    w.SeeksPrev rax.head (seekAround rax it true false w)

variable (hwf : rax.head.Wf) (hnodes : rax.numnodes = rax.head.nodes)
include hwf hnodes

/-- A search back from a node. -/
theorem prevLoop_from (hon : c.On rax.head) :
    ReachesBack rax.head (before c.stack)
      (prevLoop (rax.numnodes + 1) (rax.numnodes + 1) false c) := by
  have hle := hon.linked.nodes_le hwf
  exact prevLoop_reaches hon hwf (by omega) (by omega)

variable {w : Walk V} {ele : Bytes} {noup : Bool} {i : Nat} (heof : it.eof = false)
include heof

theorem Walk.SeeksNext.of_step (hfalls : Falls w.stop w.inner i)
    (hseek : seekAround rax it false true w = seekStep rax it false true noup c)
    (henters : Enters rax.head (w.cursor.onward i) (nextNode noup c)) :
    w.SeeksNext rax.head (seekAround rax it false true w) := by
  refine ⟨_, ?_, i, hfalls, nextLoop_reaches hwf henters (le_of_eq hnodes.symm)⟩
  simp only [hseek, seekStep, raxIteratorNextStep, heof, false_eq_true, if_false]
  exact Iterator.arrived_arrive rfl _

omit hwf hnodes in
theorem Walk.SeeksPrev.of_step
    (hseek : seekAround rax it true false w = seekStep rax it true false noup c)
    (hback : let r := prevLoop (rax.numnodes + 1) (rax.numnodes + 1) noup c
      (w.inner = [] ∧ ReachesBack rax.head (before w.stack) r) ∨
        (w.inner ≠ [] ∧ ∃ i, Falls w.stop w.inner i ∧ ReachesBack rax.head (w.cursor.upTo i) r)) :
    w.SeeksPrev rax.head (seekAround rax it true false w) := by
  refine ⟨_, ?_, hback⟩
  simp only [hseek, seekStep, raxIteratorPrevStep, heof]
  exact Iterator.arrived_arrive rfl _

variable (hw : w.Correct rax.head ele) (hon : w.cursor.On rax.head)
include hw hon

/-- The string was walked along to its end. -/
theorem seekAround_ended (hrest : w.rest = []) : w.Seeks rax it := by
  have hfalls := falls_ended hw.stopped hw.wf.shape hrest
  have hinner : w.inner = w.stop.data.take w.splitpos := by
    rw [Walk.inner, hrest, append_nil]
  constructor
  · have hseek : seekAround rax it false true w = seekStep rax it false true false w.cursor := by
      simp [seekAround, hrest, Walk.cursor]
    exact .of_step hwf hnodes heof hfalls hseek (hon.nextNode hwf)
  by_cases hkey : w.stop.iscompr = true ∧ w.stop.iskey = true ∧ w.splitpos ≠ 0
  · -- inside a compressed node that is a key: that key is the one in front
    obtain ⟨hc, hiskey, hpos⟩ := hkey
    have hinside := hw.stopped.inside hc
    have hseek : seekAround rax it true false w = it.arrive (some w.cursor) := by
      simp [seekAround, hrest, hc, hiskey, hpos, Walk.cursor]
    refine ⟨some w.cursor, hseek ▸ Iterator.arrived_arrive heof _, .inr ⟨?_, 0, hfalls, hon,
      hiskey, ?_⟩⟩
    · rw [hinner]
      apply ne_nil_of_length_pos
      rw [length_take]
      omega
    · rw [Cursor.upTo_zero, w.cursor.self_of_key hiskey]
  · have hseek : seekAround rax it true false w = seekStep rax it true false false w.cursor := by
      simp only [seekAround, hrest]
      rw [if_neg (fun hand => hkey ⟨hand.1, hand.2.1, hand.2.2.1⟩)]
      rfl
    have hr := prevLoop_from hwf hnodes hon
    apply Walk.SeeksPrev.of_step heof hseek
    by_cases hnil : w.inner = []
    · exact .inl ⟨hnil, hr⟩
    · refine .inr ⟨hnil, 0, hfalls, ?_⟩
      have hpos : w.splitpos ≠ 0 := by
        intro hzero
        rw [hinner, hzero] at hnil
        exact hnil rfl
      have hc : w.stop.iscompr = true := by
        by_contra hc
        exact hpos (hw.stopped.normal (not_eq_true _ ▸ hc))
      have hiskey : w.stop.iskey = false := by
        by_contra hiskey
        exact hkey ⟨hc, not_eq_false _ ▸ hiskey, hpos⟩
      rw [Cursor.upTo_zero, w.cursor.self_of_not_key hiskey, append_nil]
      exact hr

/-- The bytes of a compressed node go on differently: the node is behind the string or in
front of it as a whole. -/
theorem seekAround_compr (hc : w.stop.iscompr = true) (hrest : w.rest = k :: ks) : w.Seeks rax it := by
  have hshape := hw.wf.shape
  have hle := hon.linked.nodes_le hwf
  have hpos := w.cursor.node.nodes_eq
  have hinner : w.inner ≠ [] := by simp [Walk.inner, hrest]
  have hnot : w.stop.iscompr = false → False := fun hfalse => by simp [hc] at hfalse
  rcases hw.stopped.node_char hc hrest with hlt | hgt
  · have hfalls := falls_back hw.stopped hc hshape hrest hlt
    constructor
    · have hseek : seekAround rax it false true w =
          seekStep rax it false true true ⟨w.cursor.key ++ w.stop.data, w.stop, w.stack⟩ := by
        simp only [seekAround, hrest, hc, if_neg (UInt8.lt_asymm hlt), Walk.cursor]
        rfl
      have henters := hon.nextBranch hwf (bytes_compr hc) (fun hplain => (hnot hplain).elim)
        (fun _ => rfl)
      exact .of_step hwf hnodes heof hfalls hseek (nextNode_noup _ ▸ henters)
    · have hone : w.cursor.node.children.length = 1 := (hshape.compr hc).2
      have hocc : w.cursor.node.Occupied := .inr (ne_nil_of_length_pos (by omega))
      have hgreatest := hon.raxSeekGreatest hwf hocc
        (show w.cursor.node.nodes ≤ rax.numnodes + 1 by omega)
      rw [hone] at hgreatest
      have hseek : seekAround rax it true false w =
          it.arrive (some (raxSeekGreatest (rax.numnodes + 1) w.cursor)) := by
        simp only [seekAround, hrest, hc, if_pos hlt, Walk.cursor]
        rfl
      exact ⟨_, hseek ▸ Iterator.arrived_arrive heof _, .inr ⟨hinner, 1, hfalls, hgreatest⟩⟩
  · have hfalls : Falls w.stop w.inner 0 :=
      falls_front hw.stopped hc (by simpa [hrest] using hgt)
    constructor
    · have hseek : seekAround rax it false true w = seekStep rax it false true false w.cursor := by
        simp only [seekAround, hrest, hc, if_pos hgt, Walk.cursor]
        rfl
      exact .of_step hwf hnodes heof hfalls hseek (hon.nextNode hwf)
    · have hseek : seekAround rax it true false w =
          seekStep rax it true false true ⟨w.cursor.key ++ w.stop.data, w.stop, w.stack⟩ := by
        simp only [seekAround, hrest, hc, if_neg (UInt8.lt_asymm hgt), Walk.cursor]
        rfl
      exact .of_step heof hseek (.inr ⟨hinner, 0, hfalls, hon.prevLoop_noup hwf (by omega)
        (by omega) (bytes_compr hc) (Nat.zero_le _) (fun hplain => (hnot hplain).elim) fun _ => rfl⟩)

/-- The next byte is on no edge of the node. -/
theorem seekAround_plain (hc : w.stop.iscompr = false) (hrest : w.rest = k :: ks) : w.Seeks rax it := by
  have hshape := hw.wf.shape
  have hinner : w.inner ≠ [] := by simp [Walk.inner, hrest]
  have hfalls := falls_plain hw.stopped hc hshape hrest
  have hseek : ∀ lt gt, seekAround rax it lt gt w =
      seekStep rax it lt gt true ⟨w.cursor.key ++ [k], w.stop, w.stack⟩ := by
    intro lt gt
    simp [seekAround, hrest, hc, Walk.cursor]
  have hnot : w.stop.iscompr = true → False := fun htrue => by simp [hc] at htrue
  constructor
  · have henters := hon.nextBranch hwf (bytes_plain hc k)
      (fun _ => by rw [getLastD_concat]) (fun htrue => (hnot htrue).elim)
    exact .of_step hwf hnodes heof hfalls (hseek _ _) (nextNode_noup _ ▸ henters)
  · have hk : k ∉ w.stop.data := by
      have hmismatch := hw.stopped.mismatch k ks hrest
      rwa [if_neg (by simp [hc])] at hmismatch
    obtain ⟨hfront, hback⟩ := edge_split (hshape.plain hc).2 hk
    have hle := hon.linked.nodes_le hwf
    have hpos := w.cursor.node.nodes_eq
    refine .of_step heof (hseek _ _) (.inr ⟨hinner, _, hfalls, hon.prevLoop_noup hwf (by omega)
      (by omega) (bytes_plain hc k) hfalls.le (fun _ => ?_) fun htrue => (hnot htrue).elim⟩)
    rw [getLastD_concat]
    exact reverse_findIdx_lt hfront (fun x hx => UInt8.lt_asymm (hback x hx))

theorem seekAround_seeks : w.Seeks rax it := by
  cases hrest : w.rest with
  | nil => exact seekAround_ended hwf hnodes heof hw hon hrest
  | cons k ks =>
    cases hc : w.stop.iscompr with
    | true => exact seekAround_compr hwf hnodes heof hw hon hc hrest
    | false => exact seekAround_plain hwf hnodes heof hw hon hc hrest

end Around

end Redis.RadixTree

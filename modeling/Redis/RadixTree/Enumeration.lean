import Redis.RadixTree.Seek

/-! The iterator enumerates the map that the tree represents, in order, from the key that a
seek asks for. -/
namespace Redis.RadixTree

open ByteBuffer Simulation List

variable {V : Type} {root : Node V}

/-- The keys that a seek may stop at. -/
def SeekOp.Admits : SeekOp → Bytes → Bytes → Prop
  | .gt, ele, k => ele < k
  | .ge, ele, k => ¬ k < ele
  | .lt, ele, k => k < ele
  | .le, ele, k => ¬ ele < k
  | .eq, ele, k => k = ele
  | .first, _, _ => True
  | .last, _, _ => True

/-- Whether it is the last of these keys that is sought. -/
def SeekOp.Backward : SeekOp → Prop
  | .lt | .le | .last => True
  | .gt | .ge | .eq | .first => False

instance (op : SeekOp) : Decidable op.Backward := by
  cases op <;> unfold SeekOp.Backward <;> infer_instance

/-- The sought key among those of a map. -/
structure SeekOp.Seeks (op : SeekOp) (keys : Bytes → Prop) (ele k : Bytes) : Prop where
  key : keys k
  admits : op.Admits ele k
  nearest : ∀ k', keys k' → op.Admits ele k' → if op.Backward then ¬ k < k' else ¬ k' < k

def Node.Key (n : Node V) (k : Bytes) : Prop := ∃ v, (k, v) ∈ n.entries

theorem Node.Key.lt_or_gt {k ele : Bytes} (h : root.Key k) (habsent : ¬ root.Key ele) :
    k < ele ∨ ele < k := by
  rcases trichotomous_of (fun a b : Bytes => a < b) k ele with hlt | rfl | hgt
  · exact .inl hlt
  · exact absurd h habsent
  · exact .inr hgt

section Position

variable {l l' : List (Entry V)} (hroot : root.Wf)

include hroot

/-- What stands behind a position of the tree has larger keys. -/
theorem entries_split (hsplit : root.entries = l ++ l') {a b : Entry V} (ha : a ∈ l)
    (hb : b ∈ l') : a.1 < b.1 := by
  have hsorted := hroot.sorted
  rw [hsplit, pairwise_append] at hsorted
  exact hsorted.2.2 a ha b hb

variable {d : Cursor V} (hon : d.On root) (hkey : d.node.iskey = true)

include hon hkey

theorem Cursor.On.entries_at : root.entries = before d.stack ++ d.entry :: d.onward 0 := by
  rw [hon.cut hroot 0, Cursor.upTo_zero, d.self_of_key hkey, append_assoc]
  rfl

/-- The entries from a key on are those whose keys are not smaller, and the others are those
up to it. -/
theorem Cursor.On.mem_around (e : Entry V) :
    (e ∈ d.entry :: d.onward 0 ↔ e ∈ root.entries ∧ ¬ e.1 < d.key) ∧
      (e ∈ before d.stack ++ [d.entry] ↔ e ∈ root.entries ∧ ¬ d.key < e.1) := by
  have hsplit := hon.entries_at hroot hkey
  have hbefore : e ∈ before d.stack → e.1 < d.key :=
    fun he => entries_split hroot hsplit he mem_cons_self
  have hbehind : e ∈ d.onward 0 → d.key < e.1 := by
    rw [append_cons] at hsplit
    exact fun he => entries_split hroot hsplit (a := d.entry) (by simp) he
  have hself : e = d.entry → e.1 = d.key := fun heq => heq ▸ rfl
  simp only [hsplit, mem_append, mem_cons, not_mem_nil, or_false]
  grind [lt_irrefl, lt_asymm]

end Position

/-- The iterator was put at the sought key, or at the end if there is none. -/
def Iterator.Sought (it : Iterator V) (root : Node V) (op : SeekOp) (ele : Bytes) : Prop :=
  (it.eof = true ∧ ∀ k, root.Key k → ¬ op.Admits ele k) ∨
    (it.eof = false ∧ it.cur.On root ∧ it.cur.node.iskey = true ∧
      it.data = raxGetData it.cur.node ∧ op.Seeks root.Key ele it.cur.key)

section Sought

variable {it : Iterator V} {op : SeekOp} {ele : Bytes} {l l' : List (Entry V)}
  {r : Option (Cursor V)}

/-- A move that ends at the nearest of the admitted keys. -/
theorem sought_of_nearest (harrived : it.Arrived r)
    (hsel : ∀ e, e ∈ l ↔ e ∈ root.entries ∧ op.Admits ele e.1) (hreach : match r with
      | none => l = []
      | some d => d.On root ∧ d.node.iskey = true ∧ d.entry ∈ l ∧
          ∀ e ∈ l, if op.Backward then ¬ d.key < e.1 else ¬ e.1 < d.key) :
    it.Sought root op ele := by
  cases r with
  | none =>
    refine .inl ⟨harrived, ?_⟩
    rintro k ⟨v, hk⟩ hadmits
    have hmem := (hsel (k, v)).mpr ⟨hk, hadmits⟩
    rw [show l = [] from hreach] at hmem
    cases hmem
  | some d =>
    obtain ⟨heof, rfl, hdata⟩ := harrived
    obtain ⟨hon, hkey, hmem, hnearest⟩ := hreach
    obtain ⟨hentry, hadmits⟩ := (hsel _).mp hmem
    refine .inr ⟨heof, hon, hkey, hdata, ⟨_, hentry⟩, hadmits, ?_⟩
    rintro k ⟨v, hk⟩ hadmits
    exact hnearest _ ((hsel (k, v)).mpr ⟨hk, hadmits⟩)

variable (hroot : root.Wf)

include hroot

theorem sought_of_reaches (harrived : it.Arrived r) (hsplit : root.entries = l ++ l')
    (hop : ¬ op.Backward) (hnot : ∀ e ∈ l, ¬ op.Admits ele e.1)
    (hyes : ∀ e ∈ l', op.Admits ele e.1) (hreach : Reaches root l' r) : it.Sought root op ele := by
  refine sought_of_nearest (l := l') harrived (fun e => ?_) ?_
  · rw [hsplit, mem_append]
    exact ⟨fun he => ⟨.inr he, hyes e he⟩, fun he => he.1.resolve_left fun hl => hnot e hl he.2⟩
  · cases r with
    | none => exact hreach
    | some d =>
      obtain ⟨hon, hkey, rfl⟩ := hreach
      refine ⟨hon, hkey, mem_cons_self .., fun e he => ?_⟩
      rw [if_neg hop]
      exact ((hon.mem_around hroot hkey e).1.mp he).2

theorem sought_of_reachesBack (harrived : it.Arrived r) (hsplit : root.entries = l ++ l')
    (hop : op.Backward) (hyes : ∀ e ∈ l, op.Admits ele e.1)
    (hnot : ∀ e ∈ l', ¬ op.Admits ele e.1) (hreach : ReachesBack root l r) :
    it.Sought root op ele := by
  refine sought_of_nearest (l := l) harrived (fun e => ?_) ?_
  · rw [hsplit, mem_append]
    exact ⟨fun he => ⟨.inl he, hyes e he⟩, fun he => he.1.resolve_right fun hl => hnot e hl he.2⟩
  · cases r with
    | none => exact hreach
    | some d =>
      obtain ⟨hon, hkey, rfl⟩ := hreach
      refine ⟨hon, hkey, mem_append_right _ (mem_singleton_self _), fun e he => ?_⟩
      rw [if_pos hop]
      exact ((hon.mem_around hroot hkey e).2.mp he).2

variable {w : Walk V} (hw : w.Correct root ele) (hon : w.cursor.On root)

include hw hon

omit hroot in
theorem Walk.Correct.cursor_key : w.cursor.key ++ w.inner = ele := by
  rw [hon.key]
  exact hw.key

/-- The entries cut at the place of the string, for a search forward. -/
theorem Walk.SeeksNext.sought (h : w.SeeksNext root it) (hop : op = .gt ∨ op = .ge)
    (habsent : op = .ge → ¬ root.Key ele) : it.Sought root op ele := by
  obtain ⟨r, harrived, i, hfalls, hreach⟩ := h
  obtain rfl := hw.cursor_key hon
  have hsplit := hon.cut hroot i
  have hback := fun e => hon.lt_onward (e := e) hroot hfalls
  have hfront := fun e => hon.not_lt_upTo (e := e) hroot hfalls
  rcases hop with rfl | rfl
  · exact sought_of_reaches hroot harrived hsplit id hfront hback hreach
  · refine sought_of_reaches hroot harrived hsplit id ?_ ?_ hreach
    · intro e he hnlt
      have hkey : root.Key e.1 := ⟨e.2, hsplit ▸ mem_append_left _ he⟩
      exact (hkey.lt_or_gt (habsent rfl)).elim hnlt (hfront e he)
    · intro e he
      exact List.lt_asymm (hback e he)

theorem Walk.SeeksPrev.sought (h : w.SeeksPrev root it) (hop : op = .lt ∨ op = .le)
    (habsent : op = .le → ¬ root.Key ele) : it.Sought root op ele := by
  obtain ⟨r, harrived, hcases⟩ := h
  obtain rfl := hw.cursor_key hon
  -- in front of the cut are the smaller keys
  obtain ⟨l, l', hsplit, hfront, hback, hreach⟩ : ∃ l l', root.entries = l ++ l' ∧
      (∀ e ∈ l, e.1 < w.cursor.key ++ w.inner) ∧ (∀ e ∈ l', ¬ e.1 < w.cursor.key ++ w.inner) ∧
      ReachesBack root l r := by
    rcases hcases with ⟨hinner, hreach⟩ | ⟨hinner, i, hfalls, hreach⟩
    · have hcut := hon.cut hroot 0
      have hfalls : Falls w.cursor.node [] 0 := falls_nil hw.wf.shape
      rw [Cursor.upTo_zero, append_assoc] at hcut
      rw [hinner]
      refine ⟨_, _, hcut, fun e he => hon.before_lt hroot he, fun e he => ?_, hreach⟩
      · rcases mem_append.mp he with hself | honward
        · obtain ⟨e', he', rfl⟩ := mem_map.mp hself
          rw [addPrefix, own_fst he']
          exact List.lt_irrefl _
        · exact List.lt_asymm (hon.lt_onward hroot hfalls honward)
    · exact ⟨_, _, hon.cut hroot i, fun e he => hon.upTo_lt hroot hfalls hinner he,
        fun e he => List.lt_asymm (hon.lt_onward hroot hfalls he), hreach⟩
  rcases hop with rfl | rfl
  · exact sought_of_reachesBack hroot harrived hsplit trivial hfront hback hreach
  · refine sought_of_reachesBack hroot harrived hsplit trivial ?_ ?_ hreach
    · intro e he
      exact List.lt_asymm (hfront e he)
    · intro e he hnlt
      have hkey : root.Key e.1 := ⟨e.2, hsplit ▸ mem_append_right _ he⟩
      exact (hkey.lt_or_gt (habsent rfl)).elim (hback e he) hnlt

end Sought

section Seek

variable {rax : Rax V} {it : Iterator V} {ele : Bytes}

theorem not_key_of_not_found (hwf : rax.head.Wf)
    (hnot : ¬ ((raxLowWalk rax ele).Found ∧ (raxLowWalk rax ele).stop.iskey = true)) :
    ¬ rax.head.Key ele := by
  have hw := raxLowWalk_correct hwf ele
  rintro ⟨v, hv⟩
  rw [hw.mem_iff] at hv
  by_cases hfound : (raxLowWalk rax ele).Found
  · exact hnot ⟨hfound, ((Walk.mem_of_found hw.wf hw.stopped hfound).mp hv).1⟩
  · exact Walk.not_mem_of_not_found hw.stopped hfound v hv

variable (hwf : rax.head.Wf) (heof : it.eof = false)

include hwf heof

/-- The string itself is not asked for, or it is no key. -/
theorem seekKey_sought {eq lt gt : Bool} {op : SeekOp}
    (heq : eq = true → op = .ge ∨ op = .le ∨ op = .eq)
    (haround : (eq = true → ¬ rax.head.Key ele) → Iterator.Sought (if lt = true ∨ gt = true then
    { seekAround rax it lt gt (raxLowWalk rax ele) with justSeeked := true }
      else { it with eof := true }) rax.head op ele) :
    (seekKey rax it eq lt gt ele).Sought rax.head op ele := by
  have htest : ∀ w : Walk V, (eq = true ∧ w.rest = [] ∧
      (w.stop.iscompr = false ∨ w.splitpos = 0) ∧ w.stop.iskey = true) ↔
      eq = true ∧ w.Found ∧ w.stop.iskey = true := by
    intro w
    rw [Walk.Found]
    cases w.stop.iscompr <;> simp
    tauto
  rw [seekKey, if_congr (htest _) rfl rfl]
  split
  next hfound =>
    -- the string is a key, and is asked for
    obtain ⟨hasked, hfound, hkey⟩ := hfound
    have hw := raxLowWalk_correct hwf ele
    have hele : path (raxLowWalk rax ele).stack = ele := by
      have hkey := hw.key
      rwa [hfound.inner_eq hw.stopped, append_nil] at hkey
    refine .inr ⟨heof, ⟨(raxLowWalk_on hwf ele).linked, hele.symm⟩, hkey, rfl, ⟨_, hw.mem_iff.mpr
      ((Walk.mem_of_found hw.wf hw.stopped hfound).mpr ⟨hkey, rfl⟩)⟩, ?_, ?_⟩
    · rcases heq hasked with rfl | rfl | rfl
      · exact List.lt_irrefl _
      · exact List.lt_irrefl _
      · exact rfl
    · rintro k - hadmits
      rcases heq hasked with rfl | rfl | rfl
      · exact hadmits
      · exact hadmits
      · rw [show k = ele from hadmits]
        exact List.lt_irrefl _
  next hfound => exact haround fun h => not_key_of_not_found hwf fun hand => hfound ⟨h, hand⟩

theorem seekKey_exact : (seekKey rax it true false false ele).Sought rax.head .eq ele := by
  refine seekKey_sought hwf heof (fun _ => .inr (.inr rfl)) fun habsent => .inl ⟨rfl, ?_⟩
  rintro k hkey rfl
  exact habsent rfl hkey

variable (hnodes : rax.numnodes = rax.head.nodes)

include hnodes

theorem seekKey_forward {eq : Bool} {op : SeekOp}
    (hop : (eq = false ∧ op = .gt) ∨ (eq = true ∧ op = .ge)) :
    (seekKey rax it eq false true ele).Sought rax.head op ele := by
  have hw := raxLowWalk_correct hwf ele
  have hon := raxLowWalk_on hwf ele
  have hnext := (seekAround_seeks hwf hnodes heof hw hon).1
  rcases hop with ⟨rfl, rfl⟩ | ⟨rfl, rfl⟩
  · exact seekKey_sought hwf heof nofun fun _ => hnext.sought hwf hw hon (.inl rfl) nofun
  · exact seekKey_sought hwf heof (fun _ => .inl rfl)
      fun habsent => hnext.sought hwf hw hon (.inr rfl) fun _ => habsent rfl

theorem seekKey_backward {eq : Bool} {op : SeekOp}
    (hop : (eq = false ∧ op = .lt) ∨ (eq = true ∧ op = .le)) :
    (seekKey rax it eq true false ele).Sought rax.head op ele := by
  have hw := raxLowWalk_correct hwf ele
  have hon := raxLowWalk_on hwf ele
  have hprev := (seekAround_seeks hwf hnodes heof hw hon).2
  rcases hop with ⟨rfl, rfl⟩ | ⟨rfl, rfl⟩
  · exact seekKey_sought hwf heof nofun fun _ => hprev.sought hwf hw hon (.inl rfl) nofun
  · exact seekKey_sought hwf heof (fun _ => .inr (.inl rfl))
      fun habsent => hprev.sought hwf hw hon (.inr rfl) fun _ => habsent rfl

/-- The first key is the first one at or behind the empty string. -/
theorem seekFirst_sought : (seekKey rax it true false true []).Sought rax.head .first ele := by
  rcases seekKey_forward hwf heof hnodes (.inr ⟨rfl, rfl⟩) with
    ⟨hend, hnone⟩ | ⟨hstands, hon, hkey, hdata, hseeks⟩
  · exact .inl ⟨hend, fun k hk _ => hnone k hk (not_lt_nil _)⟩
  · refine .inr ⟨hstands, hon, hkey, hdata, hseeks.key, trivial, ?_⟩
    exact fun k hk _ => hseeks.nearest k hk (not_lt_nil _)

/-- The greatest key of a tree that is not empty. -/
theorem seekLast_sought (hne : rax.head.entries ≠ []) :
    (it.arrive (some (raxSeekGreatest (rax.numnodes + 1) ⟨[], rax.head, []⟩))).Sought
      rax.head .last ele := by
  have hon : Cursor.On ⟨[], rax.head, []⟩ rax.head := ⟨.top, rfl⟩
  have hocc : rax.head.Occupied := by
    by_contra hnot
    obtain ⟨hkey, hchildren⟩ := not_or.mp hnot
    apply hne
    rw [Node.entries_eq, Node.own, if_neg hkey, Node.edges, not_not.mp hchildren]
    simp
  have hgreatest := hon.raxSeekGreatest hwf hocc
    (show rax.head.nodes ≤ rax.numnodes + 1 by omega)
  have hcut := hon.cut hwf rax.head.children.length
  rw [Cursor.onward_of_le _ (le_refl _)] at hcut
  exact sought_of_reachesBack hwf (Iterator.arrived_arrive heof _) hcut trivial
    (fun _ _ => trivial) (fun e he => by cases he) hgreatest

end Seek

section Steps

variable {rax : Rax V} {it : Iterator V}

theorem raxSeek_sought (h : rax.Inv) (it : Iterator V) (op : SeekOp) (ele : Bytes) :
    (raxSeek rax it op ele).Sought rax.head op ele := by
  have hne : rax.numele ≠ 0 → rax.head.entries ≠ [] := by
    rw [h.numele]
    exact fun hlen => ne_nil_of_length_pos (pos_of_ne_zero hlen)
  unfold raxSeek
  split_ifs with hzero
  · refine .inl ⟨rfl, ?_⟩
    rintro k ⟨v, hk⟩
    rw [h.numele] at hzero
    rw [eq_nil_of_length_eq_zero hzero] at hk
    cases hk
  cases op with
  | gt => exact seekKey_forward h.wf rfl h.numnodes (.inl ⟨rfl, rfl⟩)
  | ge => exact seekKey_forward h.wf rfl h.numnodes (.inr ⟨rfl, rfl⟩)
  | lt => exact seekKey_backward h.wf rfl h.numnodes (.inl ⟨rfl, rfl⟩)
  | le => exact seekKey_backward h.wf rfl h.numnodes (.inr ⟨rfl, rfl⟩)
  | eq => exact seekKey_exact h.wf rfl
  | last => exact seekLast_sought h.wf rfl h.numnodes (hne hzero)
  | first => exact seekFirst_sought h.wf rfl h.numnodes

theorem raxSeek_justSeeked (rax : Rax V) (it : Iterator V) (op : SeekOp) (ele : Bytes) :
    (raxSeek rax it op ele).justSeeked = true := by
  have hkey : ∀ (it : Iterator V) (eq lt gt : Bool) (ele : Bytes), it.justSeeked = true →
      (seekKey rax it eq lt gt ele).justSeeked = true := by
    intro it eq lt gt ele hjust
    simp only [seekKey]
    split_ifs
    · exact hjust
    · rfl
    · exact hjust
  unfold raxSeek
  split_ifs
  · rfl
  · cases op with
    | last => rfl
    | _ => exact hkey _ _ _ _ _ rfl

/-- The iterator stands at a key of the tree, with its value. -/
structure Iterator.Stands (it : Iterator V) (root : Node V) : Prop where
  eof : it.eof = false
  on : it.cur.On root
  key : it.cur.node.iskey = true
  data : it.data = raxGetData it.cur.node

/-- What the calls are still going to return, if `rest` is what is left behind a key. -/
def Iterator.Pending (root : Node V) (rest : Cursor V → List (Entry V)) (it : Iterator V)
    (l : List (Entry V)) : Prop :=
  (it.eof = true ∧ l = []) ∨
    (it.Stands root ∧ l = (if it.justSeeked then [it.cur.entry] else []) ++ rest it.cur)

/-- A call returns the next entry of a list, or 0 at the end of the list. -/
def Yields (step : Iterator V → Iterator V × Bool) (P : Iterator V → List (Entry V) → Prop) :
    Prop :=
  ∀ it l, P it l →
    match l with
    | [] => (step it).2 = false ∧ (step it).1.eof = true
    | e :: rest => (step it).2 = true ∧ (step it).1.eof = false ∧
        ((step it).1.cur.key, (step it).1.data) = e ∧ P (step it).1 rest

theorem Iterator.Stands.entry_eq {root : Node V} (h : it.Stands root) :
    (it.cur.key, it.data) = it.cur.entry := by
  rw [h.data]
  rfl

/-- Both directions: the call after a seek stays, every other one moves to the next key. -/
theorem yields_pending {root : Node V} {rest : Cursor V → List (Entry V)}
    (loop : Cursor V → Option (Cursor V)) (hloop : ∀ c : Cursor V, c.On root →
      match loop c with
      | none => rest c = []
      | some d => d.On root ∧ d.node.iskey = true ∧ rest c = d.entry :: rest d)
    {step : Iterator V → Iterator V}
    (hstep : ∀ it : Iterator V, step it =
      if it.eof then it
      else if it.justSeeked then { it with justSeeked := false } else it.arrive (loop it.cur)) :
    Yields (fun it => (step it, !(step it).eof)) (Iterator.Pending root rest) := by
  intro it l hl
  rcases hl with ⟨heof, rfl⟩ | ⟨hstands, rfl⟩
  · simp [hstep, heof]
  have hmoving : step it = if it.justSeeked then { it with justSeeked := false }
      else it.arrive (loop it.cur) := by
    rw [hstep, if_neg (by simp [hstands.eof])]
  dsimp only
  rw [hmoving]
  cases hjust : it.justSeeked with
  | true =>
    refine ⟨by simp [hstands.eof], hstands.eof, hstands.entry_eq, ?_⟩
    exact .inr ⟨⟨hstands.eof, hstands.on, hstands.key, hstands.data⟩, rfl⟩
  | false =>
    have hmoves := hloop it.cur hstands.on
    simp only [Bool.false_eq_true, if_false, nil_append]
    cases hfound : loop it.cur with
    | none =>
      rw [hfound] at hmoves
      rw [show rest it.cur = [] from hmoves]
      exact ⟨rfl, rfl⟩
    | some d =>
      rw [hfound] at hmoves
      obtain ⟨hon, hkey, hcons⟩ := hmoves
      have heof : (it.arrive (some d)).eof = false := hstands.eof
      have hagain : (it.arrive (some d)).justSeeked = false := hjust
      rw [hcons]
      refine ⟨by simp [heof], heof, rfl, .inr ⟨⟨heof, hon, hkey, rfl⟩, ?_⟩⟩
      rw [hagain]
      rfl

variable (h : rax.Inv)
include h

theorem raxNext_yields : Yields (raxNext rax) (Iterator.Pending rax.head fun c => c.onward 0) := by
  refine yields_pending (nextLoop (rax.numnodes + 1) false) ?_ (fun it => rfl)
  intro c hon
  exact nextLoop_reaches h.wf (hon.nextNode h.wf) (le_of_eq h.numnodes.symm)

theorem raxPrev_yields :
    Yields (raxPrev rax) (Iterator.Pending rax.head fun c => (before c.stack).reverse) := by
  refine yields_pending (prevLoop (rax.numnodes + 1) (rax.numnodes + 1) false) ?_
    (fun it => rfl)
  intro c hon
  have hreach := prevLoop_from h.wf h.numnodes hon
  cases hloop : prevLoop (rax.numnodes + 1) (rax.numnodes + 1) false c with
  | none =>
    rw [hloop] at hreach
    exact reverse_eq_nil_iff.mpr hreach
  | some d =>
    rw [hloop] at hreach
    exact ⟨hreach.1, hreach.2.1, by rw [hreach.2.2, reverse_concat]⟩

/-- Calls until one returns 0, but not more than a number of them: what they found, and the
iterator after them. -/
def drain (step : Iterator V → Iterator V × Bool) :
    Nat → Iterator V → List (Entry V) × Iterator V
  | 0, it => ([], it)
  | n + 1, it =>
    if (step it).2 then
      (((step it).1.cur.key, (step it).1.data) :: (drain step n (step it).1).1,
        (drain step n (step it).1).2)
    else ([], (step it).1)

omit h in
theorem drain_eq {step : Iterator V → Iterator V × Bool} {P : Iterator V → List (Entry V) → Prop}
    (h : Yields step P) (n : Nat) {l : List (Entry V)} (hl : P it l) :
    (drain step n it).1 = l.take n ∧
      (it.eof = false → ((drain step n it).2.eof = true ↔ l.length < n)) := by
  induction n generalizing it l with
  | zero => simp [drain]
  | succ n ih =>
    have hstep := h it l hl
    cases l with
    | nil =>
      obtain ⟨hzero, heof⟩ := hstep
      simp [drain, hzero, heof]
    | cons e rest =>
      obtain ⟨hone, heof, hentry, hrest⟩ := hstep
      obtain ⟨hlist, hend⟩ := ih hrest
      simp only [drain, hone, if_true, hlist, hentry, take_succ_cons, length_cons,
        Nat.add_lt_add_iff_right]
      exact ⟨trivial, fun _ => hend heof⟩

/-- Repeated calls go once through the entries with a property, in the given order, and then
come to the end. -/
def Enumerates (calls : Nat → List (Entry V) × Iterator V) (R : Bytes → Bytes → Prop)
    (P : Bytes → Option V → Prop) : Prop :=
  ∃ l : List (Entry V), l.Pairwise (fun a b => R a.1 b.1) ∧ (∀ k v, (k, v) ∈ l ↔ P k v) ∧
    ∀ n, (calls n).1 = l.take n ∧ ((calls n).2.eof = true ↔ l.length < n)

/-- From a key on, `raxNext` enumerates the keys at or behind it and `raxPrev` those at or in
front of it. -/
theorem Iterator.Stands.enumerates (hstands : it.Stands rax.head) (hjust : it.justSeeked = true) :
    Enumerates (fun n => drain (raxNext rax) n it) (· < ·)
        (fun k v => (k, v) ∈ rax.head.entries ∧ ¬ k < it.cur.key) ∧
      Enumerates (fun n => drain (raxPrev rax) n it) (fun a b => b < a)
        (fun k v => (k, v) ∈ rax.head.entries ∧ ¬ it.cur.key < k) := by
  have hsplit := hstands.on.entries_at h.wf hstands.key
  have hsorted := h.wf.sorted
  constructor
  · have hahead : it.Pending rax.head (fun c => c.onward 0) (it.cur.entry :: it.cur.onward 0) :=
      .inr ⟨hstands, by rw [if_pos hjust]; rfl⟩
    refine ⟨_, ?_, fun k v => (hstands.on.mem_around h.wf hstands.key (k, v)).1, fun n => ?_⟩
    · rw [hsplit, pairwise_append] at hsorted
      exact hsorted.2.1
    · obtain ⟨hlist, hend⟩ := drain_eq (raxNext_yields h) n hahead
      exact ⟨hlist, hend hstands.eof⟩
  · have hbehind : it.Pending rax.head (fun c => (before c.stack).reverse)
        (before it.cur.stack ++ [it.cur.entry]).reverse :=
      .inr ⟨hstands, by rw [if_pos hjust, reverse_concat]; rfl⟩
    refine ⟨(before it.cur.stack ++ [it.cur.entry]).reverse, ?_, fun k v => ?_, fun n => ?_⟩
    · rw [pairwise_reverse]
      rw [hsplit, append_cons, pairwise_append] at hsorted
      exact hsorted.1
    · rw [mem_reverse]
      exact (hstands.on.mem_around h.wf hstands.key (k, v)).2
    · obtain ⟨hlist, hend⟩ := drain_eq (raxPrev_yields h) n hbehind
      exact ⟨hlist, hend hstands.eof⟩

variable (it : Iterator V)

/-- After a seek forward, `raxNext` returns the entries with the admitted keys, where these go on
to the end. -/
theorem raxSeek_pending {op : SeekOp} {ele : Bytes}
    (hop : ¬ op.Backward) {p : Entry V → Bool} (hp : ∀ e, p e = true ↔ op.Admits ele e.1)
    (hup : ∀ k k', op.Admits ele k → ¬ k' < k → op.Admits ele k') :
    (raxSeek rax it op ele).Pending rax.head (fun c => c.onward 0) (rax.head.entries.filter p) := by
  rcases raxSeek_sought h it op ele with ⟨heof, hnone⟩ | ⟨heof, hon, hkey, hdata, hseeks⟩
  · refine .inl ⟨heof, filter_eq_nil_iff.mpr fun e he hpe => ?_⟩
    exact hnone e.1 ⟨e.2, he⟩ ((hp e).mp hpe)
  · refine .inr ⟨⟨heof, hon, hkey, hdata⟩, ?_⟩
    have hsplit := hon.entries_at h.wf hkey
    have hfront : ∀ e ∈ before (raxSeek rax it op ele).cur.stack, ¬ p e = true := by
      intro e he hpe
      have hnear := hseeks.nearest e.1 ⟨e.2, hsplit ▸ mem_append_left _ he⟩ ((hp e).mp hpe)
      rw [if_neg hop] at hnear
      exact hnear (entries_split h.wf hsplit he (mem_cons_self ..))
    have hback : ∀ e ∈ (raxSeek rax it op ele).cur.entry :: (raxSeek rax it op ele).cur.onward 0,
        p e = true := fun e he =>
      (hp e).mpr (hup _ _ hseeks.admits ((hon.mem_around h.wf hkey e).1.mp he).2)
    rw [raxSeek_justSeeked, if_pos rfl, hsplit, filter_append, filter_eq_nil_iff.mpr hfront,
      filter_eq_self.mpr hback]
    rfl

/-- After a seek with `>=`, what `raxNext` returns are the entries that are not smaller. -/
theorem raxSeek_ge_pending (ele : Bytes) :
    (raxSeek rax it .ge ele).Pending rax.head (fun c => c.onward 0)
      (rax.head.entries.filter fun e => ¬ e.1 < ele) :=
  raxSeek_pending h it id (fun _ => decide_eq_true_iff) fun _ _ hge hnot hlt =>
    hge (List.lt_of_le_of_lt (List.not_lt.mp hnot) hlt)

/-- After a seek to the first key, `raxNext` returns every entry. -/
theorem raxSeek_first_pending (ele : Bytes) :
    (raxSeek rax it .first ele).Pending rax.head (fun c => c.onward 0) rax.head.entries := by
  rw [← filter_true rax.head.entries]
  exact raxSeek_pending h it id (fun _ => iff_of_true rfl trivial) fun _ _ _ _ => trivial

end Steps

section Run

variable {rax : Rax V} {m : Bytes → Option (Option V)}

/-- The outcome of a seek in a map, whatever the iterator was used for before. -/
def EnumeratesMap (rax : Rax V) (m : Bytes → Option (Option V)) (it : Iterator V) (op : SeekOp)
    (ele : Bytes) : Prop :=
  let sought := raxSeek rax it op ele
  ((∀ k, m k ≠ none → ¬ op.Admits ele k) ∧ sought.eof = true ∧
      ∀ n, (drain (raxNext rax) n sought).1 = [] ∧ (drain (raxPrev rax) n sought).1 = []) ∨
    ∃ k, op.Seeks (fun k => m k ≠ none) ele k ∧
      Enumerates (fun n => drain (raxNext rax) n sought) (· < ·)
        (fun k' v => m k' = some v ∧ ¬ k' < k) ∧
      Enumerates (fun n => drain (raxPrev rax) n sought) (fun a b => b < a)
        (fun k' v => m k' = some v ∧ ¬ k < k')

theorem Represents.key_iff (h : Represents rax m) (k : Bytes) :
    rax.head.Key k ↔ m k ≠ none := by
  rw [Node.Key, Option.ne_none_iff_exists']
  exact exists_congr fun v => h.mem k v

theorem Represents.enumeratesMap (h : Represents rax m) (it : Iterator V) (op : SeekOp)
    (ele : Bytes) : EnumeratesMap rax m it op ele := by
  have hkeys : rax.head.Key = fun k => m k ≠ none := funext fun k => propext (h.key_iff k)
  rcases raxSeek_sought h.inv it op ele with ⟨heof, hnone⟩ | ⟨heof, hon, hkey, hdata, hseeks⟩
  · refine .inl ⟨fun k hk => hnone k ((h.key_iff k).mpr hk), heof, fun n => ?_⟩
    have hnext := drain_eq (raxNext_yields h.inv) n (.inl ⟨heof, rfl⟩)
    have hprev := drain_eq (raxPrev_yields h.inv) n (.inl ⟨heof, rfl⟩)
    exact ⟨by simpa using hnext.1, by simpa using hprev.1⟩
  · have henum := Iterator.Stands.enumerates h.inv ⟨heof, hon, hkey, hdata⟩
      (raxSeek_justSeeked rax it op ele)
    simp only [h.mem] at henum
    exact .inr ⟨_, hkeys ▸ hseeks, henum⟩

end Run

/-- After any run of insertions of keys that fit in one node, and of removals, a seek stops at
the key it asks for, and the calls behind it enumerate the map from there in order. -/
theorem iterator_enumerates_map (ops : List (RaxOp V)) (hshort : ∀ op ∈ ops, op.Short)
    (it : Iterator V) (op : SeekOp) (ele : Bytes) :
    EnumeratesMap (run raxStep raxNew ops).1 (run mapStep (fun _ => none) ops).1 it op ele :=
  (run_represents hshort).1.enumeratesMap it op ele

/-- The string ends inside the node of a longer key, behind one that is a key. -/
theorem iterator_enumerates_map_splitting :
    EnumeratesMap (run raxStep raxNew splittingOps).1 (run mapStep (fun _ => none) splittingOps).1
        raxStart .lt [114, 111, 109, 97] ∧
      (drain (raxNext (run raxStep raxNew splittingOps).1) 3
          (raxSeek (run raxStep raxNew splittingOps).1 raxStart .lt [114, 111, 109, 97])).1 =
        [([114, 111, 109], none), ([114, 111, 109, 97, 110, 101], some 1)] :=
  ⟨iterator_enumerates_map splittingOps splittingOps_short raxStart .lt [114, 111, 109, 97],
    by decide⟩

section LongKeys

/-- A key that is one byte too long for a node, one that splits its first node, and the
removal of that one. -/
def overlongOps (t : Bytes) (v : V) : List (RaxOp V) :=
  [.insert (0 :: (t ++ [0])) (some v), .insert [1] none, .remove [1]]

def leafOf (v : V) : Node V := raxSetData raxNewNode (some v)

def chainOf (s : Bytes) (child : Node V) : Node V :=
  { (raxNewNode : Node V) with iscompr := true, data := s, children := [child] }

/-- The first node is full, and the last byte has a node of its own. -/
def overlongTree (t : Bytes) (v : V) : Rax V where
  head := chainOf (0 :: t) { (raxNewNode : Node V) with data := [0], children := [leafOf v] }
  numele := 1
  numnodes := 3

def overlongSplit (t : Bytes) (v : V) : Rax V where
  head :=
    { (raxNewNode : Node V) with
      data := [0, 1]
      children :=
        [chainOf t { (raxNewNode : Node V) with data := [0], children := [leafOf v] },
          raxSetData raxNewNode none] }
  numele := 2
  numnodes := 5

variable {t : Bytes}

theorem exists_overlong : ∃ t : Bytes, t.length + 1 = raxNodeMaxSize :=
  ⟨replicate (raxNodeMaxSize - 1) 0, by rw [length_replicate]; decide⟩

theorem overlong_long (ht : t.length + 1 = raxNodeMaxSize) : 1 < t.length := by
  have hmax : 3 < raxNodeMaxSize := by decide
  omega

theorem overlong_insert (ht : t.length + 1 = raxNodeMaxSize) (v : V) :
    (raxInsert raxNew (0 :: (t ++ [0])) (some v)).1 = overlongTree t v := by
  simp [raxInsert, raxGenericInsert, raxLowWalk, lowWalk, raxNew, raxNewNode, insertRest, ← ht,
    plug, raxCompressNode, raxAddChild, chainOf, overlongTree, leafOf, raxSetData]

theorem overlong_split (ht : 1 < t.length) (v : V) :
    (raxInsert (overlongTree t v) [1] none).1 = overlongSplit t v := by
  have hne : t ≠ [] := ne_nil_of_length_pos (by omega)
  simp [raxInsert, raxGenericInsert, raxLowWalk, lowWalk, raxNewNode, insertRest, plug, matchLength,
    raxAddChild, chainOf, splitNode, raxNodeLastChild, raxSetData, ht, hne, overlongTree,
    overlongSplit]

/-- The recompression measures what fits in a node, but takes everything up to the next key out
of the tree: the last byte of the key is lost. -/
theorem overlong_remove (ht : t.length + 1 = raxNodeMaxSize) (v : V) :
    (raxRemove (overlongSplit t v) [1]).1 =
      { head := chainOf (0 :: t) (leafOf v), numele := 1, numnodes := 2 } := by
  simp [raxRemove, raxLowWalk, lowWalk, raxNewNode, plug, chainOf, raxSetData, reclaim, endsChain,
    raxRemoveChild, recompress, seekStart, scanChain, collectChain, leafOf, ← ht, overlongSplit,
    add_comm 1 t.length]

/-- The first scan stops at a full node; the second one copies one byte more and frees one node
more. -/
theorem overlong_passes_differ :
    ∃ (ops : List (RaxOp Nat)) (s : Bytes) (h : Node Nat) (stack : List (Frame Nat)),
      trycompress (run raxStep raxNew ops).1 s = some (h, stack) ∧
        ¬ PassesAgree (seekStart h stack).1 := by
  obtain ⟨t, ht⟩ := exists_overlong
  refine ⟨[.insert (0 :: (t ++ [0])) (some 7), .insert [1] none], [1],
    { (raxNewNode : Node Nat) with
      data := [0]
      children := [chainOf t { (raxNewNode : Node Nat) with data := [0], children := [leafOf 7] }] },
    [], ?_, ?_⟩
  · simp only [run_cons, run_nil, raxStep, overlong_insert ht, overlong_split (overlong_long ht)]
    simp [trycompress, raxLowWalk, lowWalk, raxNewNode, chainOf, raxSetData, reclaim, endsChain,
      raxRemoveChild, overlongSplit]
  · simp [PassesAgree, seekStart, scanChain, collectChain, endsChain, chainOf, leafOf,
      raxNewNode, raxSetData, ← ht, Nat.add_comm 1 t.length]

theorem overlong_run (ht : t.length + 1 = raxNodeMaxSize) (v : V) :
    (run raxStep raxNew (overlongOps t v)).1 =
      { head := chainOf (0 :: t) (leafOf v), numele := 1, numnodes := 2 } := by
  simp only [overlongOps, run_cons, run_nil, raxStep, overlong_insert ht, overlong_split (overlong_long ht),
    overlong_remove ht]

theorem overlong_first (s : Bytes) (v : V) :
    let rax : Rax V := { head := chainOf s (leafOf v), numele := 1, numnodes := 2 }
    (drain (raxNext rax) 1 (raxSeek rax raxStart .first [])).1 = [(s, some v)] := by
  simp [drain, raxNext, raxSeek, seekKey, raxLowWalk, lowWalk, chainOf, raxNewNode, seekAround,
    seekStep, raxIteratorNextStep, nextLoop, nextNode, numChildren, Cursor.enter, spell, leafOf,
    raxSetData, Iterator.arrive, raxGetData]

theorem overlong_key_lost :
    ∃ (ops : List (RaxOp Nat)) (it : Iterator Nat) (op : SeekOp) (ele : Bytes),
      ¬ EnumeratesMap (run raxStep raxNew ops).1 (run mapStep (fun _ => none) ops).1 it op ele := by
  obtain ⟨t, ht⟩ := exists_overlong
  refine ⟨overlongOps t 7, raxStart, .first, [], ?_⟩
  have hfirst := overlong_first (0 :: t) 7
  have hmap : ∀ k, (run mapStep (fun _ => none) (overlongOps t 7)).1 k =
      if k = 0 :: (t ++ [0]) then some (some 7) else none := by
    intro k
    simp only [overlongOps, run_cons, run_nil, mapStep, Function.update_apply]
    by_cases hk : k = [1]
    · simp [hk]
    · simp [hk]
  rw [EnumeratesMap, overlong_run ht]
  rintro (⟨hnone, _⟩ | ⟨k, hseeks, ⟨l, _, hl, hcalls⟩, _⟩)
  · refine hnone (0 :: (t ++ [0])) ?_ trivial
    rw [hmap, if_pos rfl]
    simp
  · have hone := (hcalls 1).1
    rw [hfirst] at hone
    have hmem : (0 :: t, some 7) ∈ l := mem_of_mem_take (hone ▸ mem_singleton_self _)
    have hmapped := ((hl _ _).mp hmem).1
    rw [hmap, if_neg (by simp)] at hmapped
    cases hmapped

end LongKeys

end Redis.RadixTree

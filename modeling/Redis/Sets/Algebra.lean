import Redis.Sets.Reference

/-! Intersections, unions and differences, replied or stored. -/
namespace Redis.Sets

open ByteBuffer Util Shared List

variable {rest : List Bytes} {key : Bytes} {dst : Option Bytes}

section Sources

variable {db : Db} {sets : List Source} {keys : List Bytes}

/-- The source is a set of the keyspace, so that the key stands for it. -/
def IsSource (db : Db) (src : Source) : Prop := db src.1 = some (.set src.2)

theorem interSources_abstract (db : Db) (keys : List Bytes) :
    Reference.interSources (abstract db) keys =
      (sinterSources db keys).map fun sets => sets.map fun src => src.2.members := by
  induction keys with
  | nil => rfl
  | cons key keys ih =>
    rw [Reference.interSources, sinterSources, ih, abstract]
    cases db key with
    | none => rfl
    | some o =>
      cases o with
      | other => rfl
      | set s => cases sinterSources db keys <;> rfl

theorem isSource_of_sinterSources (h : sinterSources db keys = .ok sets) :
    sets.length = keys.length ∧ ∀ src ∈ sets, IsSource db src := by
  induction keys generalizing sets with
  | nil =>
    cases h
    exact ⟨rfl, by simp⟩
  | cons key keys ih =>
    rw [sinterSources] at h
    cases hkey : db key with
    | none => simp [hkey] at h
    | some o =>
      cases o with
      | other => simp [hkey] at h
      | set s =>
        simp only [hkey] at h
        cases hrest : sinterSources db keys with
        | error e => simp [hrest, Except.map] at h
        | ok rest =>
          simp only [hrest, Except.map, Except.ok.injEq] at h
          subst h
          obtain ⟨hlen, hsources⟩ := ih hrest
          refine ⟨by simp [hlen], fun src hsrc => ?_⟩
          rcases mem_cons.mp hsrc with rfl | hsrc
          · exact hkey
          · exact hsources src hsrc

/-- The members of a source; a key that does not exist has none. -/
def sourceMembers (o : Option Source) : Finset Bytes := (o.map fun src => src.2.members).getD ∅

theorem sources_abstract (db : Db) (keys : List Bytes) :
    Reference.sources (abstract db) keys =
      (sunionDiffSources db keys).map fun sets => sets.map sourceMembers := by
  induction keys with
  | nil => rfl
  | cons key keys ih =>
    rw [Reference.sources, sunionDiffSources, ih, abstract]
    cases db key with
    | none => cases sunionDiffSources db keys <;> rfl
    | some o =>
      cases o with
      | other => rfl
      | set s => cases sunionDiffSources db keys <;> rfl

theorem isSource_of_sunionDiffSources {sets : List (Option Source)}
    (h : sunionDiffSources db keys = some sets) : ∀ src, some src ∈ sets → IsSource db src := by
  induction keys generalizing sets with
  | nil =>
    cases h
    simp
  | cons key keys ih =>
    rw [sunionDiffSources] at h
    cases hkey : db key with
    | none =>
      simp only [hkey] at h
      obtain ⟨rest, hrest, rfl⟩ := Option.map_eq_some_iff.mp h
      intro src hsrc
      exact ih hrest src (by simpa using hsrc)
    | some o =>
      cases o with
      | other => simp [hkey] at h
      | set s =>
        simp only [hkey] at h
        obtain ⟨rest, hrest, rfl⟩ := Option.map_eq_some_iff.mp h
        intro src hsrc
        rcases mem_cons.mp hsrc with heq | hsrc
        · cases heq
          exact hkey
        · exact ih hrest src hsrc

end Sources

section Algebra

theorem mem_inter {s : Finset Bytes} {rest : List (Finset Bytes)} {x : Bytes} :
    x ∈ Reference.inter (s :: rest) ↔ ∀ t ∈ s :: rest, x ∈ t := by
  rw [Reference.inter]
  induction rest generalizing s with
  | nil => simp
  | cons t rest ih =>
    rw [foldl_cons, ih]
    simp only [mem_cons, forall_eq_or_imp, Finset.mem_inter]
    tauto

theorem mem_union {sets : List (Finset Bytes)} {x : Bytes} :
    x ∈ Reference.union sets ↔ ∃ t ∈ sets, x ∈ t := by
  have hfold : ∀ s, x ∈ sets.foldl (· ∪ ·) s ↔ x ∈ s ∨ ∃ t ∈ sets, x ∈ t := by
    induction sets with
    | nil => simp
    | cons t rest ih =>
      intro s
      rw [foldl_cons, ih]
      simp only [mem_cons, exists_eq_or_imp, Finset.mem_union]
      tauto
  rw [Reference.union, hfold]
  simp

end Algebra

section Loops

variable {db : Db} {s : SetObject} {l : List Bytes} {α β : Type}

theorem foldlM_congr {f g : α → β → Option α} {l : List β} (h : ∀ a, ∀ b ∈ l, f a b = g a b)
    (acc : α) : l.foldlM f acc = l.foldlM g acc := by
  induction l generalizing acc with
  | nil => rfl
  | cons b l ih =>
    rw [foldlM_cons, foldlM_cons, h acc b (by simp)]
    exact congrArg (g acc b >>= ·) (funext fun a => ih (fun a b hb => h a b (by simp [hb])) a)

/-- A loop that works only on the elements that pass a test. -/
theorem Elements.forEach_filter {elems : List Value} (helems : Elements s l elems)
    (hs : Represents s l) (P : Bytes → Bool) {body : α → Value → Option α}
    (work : α → Bytes → Option α)
    (hbody : ∀ acc, ∀ ele ∈ elems, body acc ele = if P ele.text then work acc ele.text else some acc)
    (acc : α) : Sets.forEach s body acc = (l.filter P).foldlM work acc := by
  rw [helems.forEach hs, foldlM_congr hbody, foldlM_filter, ← helems.texts, foldlM_map]
  rfl

theorem sinterFind_spec (h : Valid s) {ele : Value} (hfits : ∀ v, ele = .int v → Intsets.Fits 8 v) :
    sinterFind ele s = some (decide (ele.text ∈ s.members)) := by
  rw [← h.isMember]
  cases ele with
  | str value => rfl
  | int v =>
    cases s with
    | ht keys => rfl
    | intset is =>
      rw [sinterFind, setTypeIsMember, isSdsRepresentableAsLongLong, Value.text,
        string2ll_text (hfits v rfl)]

/-- All of these sets have the element. -/
def inAll (sets : List Source) (text : Bytes) : Bool :=
  decide (∀ src ∈ sets, text ∈ src.2.members)

/-- The inner loop skips the set itself, which has the element. -/
theorem sinterAll_spec (hdb : DbValid db) {first : Source} (hfirst : IsSource db first)
    {ele : Value} (hfits : ∀ v, ele = .int v → Intsets.Fits 8 v)
    (hin : ele.text ∈ first.2.members) {others : List Source}
    (hothers : ∀ src ∈ others, IsSource db src) :
    sinterAll first.1 ele others = some (inAll others ele.text) := by
  rw [inAll]
  induction others with
  | nil => simp [sinterAll]
  | cons src others ih =>
    obtain ⟨key, s⟩ := src
    have hsrc : db key = some (.set s) := hothers (key, s) (by simp)
    have hrest := ih fun src hsrc => hothers src (by simp [hsrc])
    rw [sinterAll]
    by_cases hkey : key = first.1
    · rw [if_pos hkey, hrest]
      have hsame : s = first.2 := by
        rw [hkey, hfirst] at hsrc
        cases hsrc
        rfl
      simp [hsame, hin]
    · rw [if_neg hkey]
      simp only [sinterFind_spec (hdb key s hsrc).1 hfits, Option.bind_eq_bind, Option.bind_some,
        hrest, decide_eq_true_eq]
      by_cases hmem : ele.text ∈ s.members
      · simp [hmem]
      · simp [hmem]

end Loops

section Results

variable {cfg : Config} {db : Db} {s : SetObject}

theorem Valid.listing (h : Valid s) : ∃ elements,
    forEach s (fun elements ele => some (elements ++ [ele.text])) [] = some elements ∧
      elements.Nodup ∧ elements.toFinset = s.members := by
  obtain ⟨l, hl⟩ := h
  exact ⟨l, hl.collect, hl.nodup, hl.members.symm⟩

theorem listing_agrees (hdb : DbValid db) {elements : List Bytes} {members : Finset Bytes}
    (hnodup : elements.Nodup) (hmembers : elements.toFinset = members) :
    Agrees (some (db, .members (members.card : Nat) elements))
      (Reference.answer (abstract db) members none) :=
  ⟨db, _, rfl, hdb, rfl, elements, rfl, hnodup, hmembers⟩

theorem storeResult_agrees (hdb : DbValid db) (h : Valid s) (dst : Bytes) :
    Agrees (some (storeResult db dst s))
      (Reference.answer (abstract db) s.members (some dst)) := by
  rw [storeResult, Reference.answer, h.size]
  by_cases hempty : s.members = ∅
  · rw [if_neg (by simp [hempty]), hempty]
    exact ⟨_, _, rfl, hdb.dbDelete dst, abstract_dbDelete db dst, rfl⟩
  · rw [if_pos (Finset.card_pos.mpr (Finset.nonempty_iff_ne_empty.mpr hempty))]
    have hset : setSet (dbDelete db dst) dst s = setSet db dst s := by
      rw [setSet, dbDelete, Dict.set_delete, setSet]
    rw [hset]
    exact ⟨_, _, rfl, hdb.setSet dst h hempty, abstract_setSet db dst hempty, rfl⟩

theorem grows_createIntsetObject {total : Nat}
    (h : min (cfg.setMaxIntsetEntries + 1) total < 2 ^ 29) : Grows cfg createIntsetObject total := by
  intro _
  exact h

/-- A new set with these elements. -/
theorem build_valid (cfg : Config) {values : List Bytes}
    (hroom : min (cfg.setMaxIntsetEntries + 1) values.toFinset.card < 2 ^ 29) :
    ∃ s, values.foldlM (addText cfg) (createIntsetObject, 0) = some (s, cInt s.members.card) ∧
      Valid s ∧ s.members = values.toFinset := by
  obtain ⟨hvalid, hempty⟩ := valid_createIntsetObject
  have hcard : (createIntsetObject.members ∪ values.toFinset).card ≤ values.toFinset.card := by
    rw [hempty, Finset.empty_union]
  obtain ⟨s, hfold, hs, hmembers, _⟩ := hvalid.addAll (grows_createIntsetObject hroom) hcard
  rw [hempty, Finset.card_empty] at hfold
  exact ⟨s, hfold, hs, hmembers⟩

end Results

section Sinter

variable {qsort : Qsort} {cfg : Config} {db : Db}

theorem foldlM_count (l : List Bytes) (elements : List Bytes) (n : Nat) :
    l.foldlM (fun (acc : List Bytes × Nat) text => some (acc.1 ++ [text], acc.2 + 1)) (elements, n) =
      some (elements ++ l, n + l.length) := by
  induction l generalizing elements n with
  | nil => simp
  | cons text l ih =>
    simp [ih, add_assoc, add_comm 1]

/-- The elements that the loop over the smallest set keeps are those of the intersection. -/
theorem inter_filter {first : Source} {others sets : List Source} {l : List Bytes}
    (hperm : (first :: others).Perm sets) (hl : Represents first.2 l) :
    (l.filter (inAll others)).toFinset =
      Reference.inter (sets.map fun src => src.2.members) := by
  cases sets with
  | nil => exact absurd hperm.length_eq (by simp)
  | cons src sets =>
    ext x
    have hinter : x ∈ Reference.inter ((src :: sets).map fun src => src.2.members) ↔
        ∀ t ∈ (src :: sets).map fun src => src.2.members, x ∈ t := mem_inter
    rw [hinter]
    simp only [forall_mem_map, mem_toFinset, mem_filter, inAll, decide_eq_true_eq]
    have hmem : x ∈ l ↔ x ∈ first.2.members := by rw [hl.members, mem_toFinset]
    rw [hmem]
    constructor
    · rintro ⟨hfirst, hothers⟩ src' hsrc'
      rcases mem_cons.mp (hperm.mem_iff.mpr hsrc') with rfl | hin
      · exact hfirst
      · exact hothers src' hin
    · intro hall
      exact ⟨hall first (hperm.mem_iff.mp (by simp)),
        fun src' hsrc' => hall src' (hperm.mem_iff.mp (by simp [hsrc']))⟩

theorem sinter_agrees (hdb : DbValid db) (hfits : Fits cfg db (.sinter key rest dst)) :
    Agrees (sinterGenericCommand qsort cfg db (key :: rest) dst)
      (Reference.step (abstract db) (.sinter key rest dst)) := by
  rw [Fits] at hfits
  unfold sinterGenericCommand
  rw [Reference.step]
  rw [interSources_abstract] at hfits ⊢
  cases hsources : sinterSources db (key :: rest) with
  | error e =>
    cases e with
    | missing =>
      cases dst with
      | none => exact listing_agrees hdb nodup_nil rfl
      | some dst => exact ⟨_, _, rfl, hdb.dbDelete dst, abstract_dbDelete db dst, rfl⟩
    | wrongType => exact ⟨db, _, rfl, hdb, rfl, rfl⟩
  | ok sets =>
    obtain ⟨hlen, hsets⟩ := isSource_of_sinterSources hsources
    have hperm := qsort.perm qsortCompareSetsByCardinality sets
    rw [hsources] at hfits
    simp only [Except.map]
    cases hsorted : qsort.sort qsortCompareSetsByCardinality sets with
    | nil =>
      rw [hsorted] at hperm
      have hnil := hperm.length_eq
      rw [hlen] at hnil
      simp at hnil
    | cons first others =>
      rw [hsorted] at hperm
      obtain ⟨firstkey, s⟩ := first
      have hfirst : IsSource db (firstkey, s) := hsets _ (hperm.mem_iff.mp (by simp))
      have hothers : ∀ src ∈ others, IsSource db src :=
        fun src hsrc => hsets src (hperm.mem_iff.mp (by simp [hsrc]))
      obtain ⟨l, hl⟩ := (hdb firstkey s hfirst).1
      obtain ⟨elems, helems⟩ := hl.elements
      have hfilter := inter_filter hperm hl
      have hall : ∀ ele ∈ elems, sinterAll firstkey ele others =
          some (inAll others ele.text) := by
        intro ele hele
        refine sinterAll_spec hdb hfirst (fun v hv => helems.ints v (hv ▸ hele)) ?_ hothers
        rw [hl.members, mem_toFinset, ← helems.texts]
        exact mem_map_of_mem hele
      cases dst with
      | none =>
        have hbody : ∀ acc, ∀ ele ∈ elems, sinterReply firstkey others acc ele =
            if inAll others ele.text then some (acc.1 ++ [ele.text], acc.2 + 1)
            else some acc := by
          intro acc ele hele
          simp only [sinterReply, hall ele hele, Option.bind_eq_bind, Option.bind_some]
          split_ifs <;> rfl
        have hloop := helems.forEach_filter hl (inAll others) (fun acc text =>
          some (acc.1 ++ [text], acc.2 + 1)) hbody ([], 0)
        have hnodup := hl.nodup.filter (inAll others)
        rw [foldlM_count, nil_append, zero_add] at hloop
        simp only [hloop, Option.bind_eq_bind, Option.bind_some]
        rw [← toFinset_card_of_nodup hnodup, hfilter]
        exact listing_agrees hdb hnodup hfilter
      | some dst =>
        have hbody : ∀ acc, ∀ ele ∈ elems, sinterStore cfg firstkey others acc ele =
            if inAll others ele.text then addOne cfg acc ele.text else some acc := by
          intro acc ele hele
          simp only [sinterStore, hall ele hele, Option.bind_eq_bind, Option.bind_some, addOne]
        have hloop := helems.forEach_filter hl (inAll others) (addOne cfg) hbody createIntsetObject
        have hroom := hfits (by simp) _ rfl
        rw [← hfilter] at hroom
        obtain ⟨dstset, hbuild, hvalid, hmembers⟩ := build_valid cfg hroom
        rw [foldlM_addOne cfg _ _ 0, hbuild, Option.map_some] at hloop
        simp only [hloop, Option.bind_eq_bind, Option.bind_some]
        rw [← hfilter, ← hmembers]
        exact storeResult_agrees hdb hvalid dst

end Sinter

section UnionDiff

variable {qsort : Qsort} {cfg : Config} {db : Db} {s : SetObject} {total : Nat}
  {sets others : List (Option Source)} {first : Source}

theorem union_cons (t : Finset Bytes) (rest : List (Finset Bytes)) :
    Reference.union (t :: rest) = t ∪ Reference.union rest := by
  ext x
  simp [mem_union]

/-- The members of all the sources together. -/
def allMembers (sets : List (Option Source)) : Finset Bytes :=
  Reference.union (sets.map sourceMembers)

@[simp]
theorem allMembers_nil : allMembers [] = ∅ := rfl

theorem allMembers_none (sets : List (Option Source)) : allMembers (none :: sets) = allMembers sets := by
  rw [allMembers, map_cons, union_cons]
  exact Finset.empty_union _

theorem allMembers_some (src : Source) (sets : List (Option Source)) :
    allMembers (some src :: sets) = src.2.members ∪ allMembers sets := by
  rw [allMembers, map_cons, union_cons]
  rfl

theorem allMembers_perm (h : sets.Perm others) : allMembers sets = allMembers others := by
  ext x
  simp [allMembers, mem_union, h.mem_iff]

/-- The sources of the list are sets of the keyspace. -/
def AreSources (db : Db) (sets : List (Option Source)) : Prop :=
  ∀ src, some src ∈ sets → IsSource db src

theorem AreSources.tail {o : Option Source} (h : AreSources db (o :: sets)) : AreSources db sets :=
  fun src hsrc => h src (mem_cons_of_mem _ hsrc)

theorem AreSources.head (h : AreSources db (some first :: sets)) : IsSource db first :=
  h first (by simp)

/-- Adding and counting in the first algorithm. -/
def keepText (cfg : Config) (acc : SetObject × Int) (text : Bytes) : Option (SetObject × Int) :=
  (setTypeAdd cfg acc.1 text).map fun r => (r.1, cInt (acc.2 + 1))

variable (hdb : DbValid db)
include hdb

theorem unionLoop_spec (hsets : AreSources db sets) (h : Valid s) (hgrows : Grows cfg s total)
    (htotal : (s.members ∪ allMembers sets).card ≤ total) :
    ∃ s', unionLoop cfg sets (s, cInt s.members.card) = some (s', cInt s'.members.card) ∧
      Valid s' ∧ s'.members = s.members ∪ allMembers sets := by
  induction sets generalizing s with
  | nil => exact ⟨s, rfl, h, by simp⟩
  | cons o sets ih =>
    cases o with
    | none =>
      exact ih hsets.tail h hgrows htotal
    | some src =>
      obtain ⟨l, hl⟩ := (hdb src.1 src.2 hsets.head).1
      rw [allMembers_some, ← Finset.union_assoc, hl.members] at htotal ⊢
      obtain ⟨s₁, hadd, hvalid, hmembers₁, hgrows₁⟩ := h.addAll hgrows
        ((Finset.card_le_card Finset.subset_union_left).trans htotal)
      have hfold : forEach src.2 (addCounting cfg) (s, cInt s.members.card) =
          l.foldlM (addText cfg) (s, cInt s.members.card) := hl.forEach_text (addText cfg) _
      rw [← hmembers₁] at htotal ⊢
      obtain ⟨s₂, hloop, hrest⟩ := ih hsets.tail hvalid hgrows₁ htotal
      refine ⟨s₂, ?_, hrest⟩
      rw [unionLoop, hfold, hadd]
      exact hloop

/-- The inner loop of the first algorithm stops at the set itself, which has the element. -/
theorem diffFound_spec (hfirst : IsSource db first) {text : Bytes} (hin : text ∈ first.2.members)
    (hothers : AreSources db others) :
    diffFound first.1 text others = some (decide (text ∈ allMembers others)) := by
  induction others with
  | nil => simp [diffFound]
  | cons o others ih =>
    have hrest := ih hothers.tail
    cases o with
    | none => rw [diffFound, hrest, allMembers_none]
    | some src =>
      obtain ⟨key, s⟩ := src
      have hsrc : db key = some (.set s) := hothers.head
      rw [diffFound, allMembers_some]
      by_cases hkey : key = first.1
      · rw [hkey, hfirst] at hsrc
        cases hsrc
        simp [hkey, hin]
      · rw [if_neg hkey]
        simp only [(hdb key s hsrc).1.isMember, Option.bind_eq_bind, Option.bind_some, hrest,
          decide_eq_true_eq]
        by_cases hmem : text ∈ s.members
        · simp [hmem]
        · simp [hmem]

omit hdb in
/-- A loop that would stop at an empty set gives what is left either way. -/
theorem Valid.stop_or (h : Valid s) {u : Finset Bytes} {next : Option (SetObject × Int)}
    (hnext : ∃ s', next = some (s', (s'.members.card : Int)) ∧ Valid s' ∧
      s'.members = s.members \ u) :
    ∃ s', (if (s.members.card : Int) = 0 then some (s, (s.members.card : Int)) else next) =
        some (s', (s'.members.card : Int)) ∧ Valid s' ∧ s'.members = s.members \ u := by
  split_ifs with hzero
  · have hempty : s.members = ∅ := Finset.card_eq_zero.mp (by exact_mod_cast hzero)
    exact ⟨s, rfl, h, by rw [hempty, Finset.empty_sdiff]⟩
  · exact hnext

omit hdb in
/-- Removing a list of values and counting. -/
theorem Valid.removeAll (h : Valid s) (hsmall : s.members.card < 2 ^ 31) (values : List Bytes) :
    ∃ s', values.foldlM (fun acc text => removeCounting acc (.str text))
        (s, (s.members.card : Int)) = some (s', (s'.members.card : Int)) ∧
      Valid s' ∧ s'.members = s.members \ values.toFinset := by
  induction values generalizing s with
  | nil => exact ⟨s, rfl, h, by simp⟩
  | cons value values ih =>
    obtain ⟨s₁, hremove, hvalid, hmembers⟩ := h.remove value
    have hstep : removeCounting (s, (s.members.card : Int)) (.str value) =
        some (s₁, (s₁.members.card : Int)) := by
      simp only [removeCounting, Value.text, hremove, Option.bind_eq_bind, Option.bind_some,
        decide_eq_true_eq, hmembers]
      by_cases hin : value ∈ s.members
      · have hpos : 0 < s.members.card := Finset.card_pos.mpr ⟨value, hin⟩
        have hcast : (s.members.card : Int) - 1 = ((s.members.card - 1 : Nat) : Int) := by omega
        rw [if_pos hin, Finset.card_erase_of_mem hin, hcast, cInt_of_lt (by omega)]
      · rw [if_neg hin, Finset.erase_eq_of_notMem hin]
    have hle : s₁.members.card ≤ s.members.card := by
      rw [hmembers]
      exact Finset.card_erase_le
    obtain ⟨s₂, hfold, hrest⟩ := ih hvalid (by omega)
    rw [sdiff_toFinset_cons, ← hmembers]
    refine ⟨s₂, ?_, hrest⟩
    rw [foldlM_cons, hstep]
    exact hfold

theorem diffRest_spec (hothers : AreSources db others) (h : Valid s)
    (hsmall : s.members.card < 2 ^ 31) :
    ∃ s', diffRest others (s, (s.members.card : Int)) = some (s', (s'.members.card : Int)) ∧
      Valid s' ∧ s'.members = s.members \ allMembers others := by
  induction others generalizing s with
  | nil => exact ⟨s, rfl, h, by simp⟩
  | cons o others ih =>
    cases o with
    | none =>
      exact ih hothers.tail h hsmall
    | some src =>
      obtain ⟨l, hl⟩ := (hdb src.1 src.2 hothers.head).1
      obtain ⟨s₁, hremove, hvalid, hmembers₁⟩ := h.removeAll hsmall l
      have hfold : forEach src.2 removeCounting (s, (s.members.card : Int)) =
          l.foldlM (fun acc text => removeCounting acc (.str text))
            (s, (s.members.card : Int)) :=
        hl.forEach_text (fun acc text => removeCounting acc (.str text)) _
      have hle : s₁.members.card ≤ s.members.card := by
        rw [hmembers₁]
        exact Finset.card_le_card Finset.sdiff_subset
      rw [allMembers_some, hl.members, ← Finset.sup_eq_union, ← sdiff_sdiff_left, ← hmembers₁,
        diffRest, hfold, hremove]
      exact hvalid.stop_or (ih hothers.tail hvalid (by omega))

omit hdb in
/-- The elements of a set are all new, so that counting them is counting the additions. -/
theorem foldlM_keepText (h : Valid s) (hgrows : Grows cfg s total) {l : List Bytes}
    (hnodup : l.Nodup) (hnew : ∀ text ∈ l, text ∉ s.members)
    (htotal : (s.members ∪ l.toFinset).card ≤ total) (n : Int) :
    l.foldlM (keepText cfg) (s, n) = l.foldlM (addText cfg) (s, n) := by
  induction l generalizing s n with
  | nil => rfl
  | cons text l ih =>
    rw [union_toFinset_cons] at htotal
    obtain ⟨s₁, hadd, hvalid, hmembers, hgrows₁⟩ := h.add hgrows
      ((Finset.card_le_card Finset.subset_union_left).trans htotal)
    rw [← hmembers] at htotal
    have hflag : decide (text ∉ s.members) = true := by simpa using hnew text (by simp)
    have hrest : ∀ x ∈ l, x ∉ s₁.members := by
      intro x hx
      rw [hmembers, Finset.mem_insert, not_or]
      exact ⟨fun heq => (nodup_cons.mp hnodup).1 (heq ▸ hx), hnew x (by simp [hx])⟩
    rw [hflag] at hadd
    have hkeep : keepText cfg (s, n) text = some (s₁, cInt (n + 1)) := by
      simp [keepText, hadd]
    have htext : addText cfg (s, n) text = some (s₁, cInt (n + 1)) := by
      simp [addText, addCounting, Value.text, hadd]
    rw [foldlM_cons, foldlM_cons, hkeep, htext]
    exact ih hvalid hgrows₁ (nodup_cons.mp hnodup).2 hrest htotal _

section Difference

variable (hfirst : IsSource db first) (hothers : AreSources db others)
  (hroom : min (cfg.setMaxIntsetEntries + 1) first.2.members.card < 2 ^ 29)
include hfirst hothers hroom

theorem diffAlgorithm1_spec :
    ∃ s', diffAlgorithm1 cfg first others = some (s', cInt s'.members.card) ∧ Valid s' ∧
      s'.members = first.2.members \ allMembers others := by
  obtain ⟨l, hl⟩ := (hdb first.1 first.2 hfirst).1
  obtain ⟨elems, helems⟩ := hl.elements
  have hbody : ∀ acc, ∀ ele ∈ elems, diffKeep cfg first.1 others acc ele =
      if decide (ele.text ∉ allMembers others) then keepText cfg acc ele.text else some acc := by
    intro acc ele hele
    have hin : ele.text ∈ first.2.members := by
      rw [hl.members, mem_toFinset, ← helems.texts]
      exact mem_map_of_mem hele
    simp only [diffKeep, diffFound_spec hdb hfirst hin hothers, Option.bind_eq_bind,
      Option.bind_some, decide_eq_true_eq, keepText]
    split_ifs
    · rfl
    · cases setTypeAdd cfg acc.1 ele.text <;> rfl
  have hloop := helems.forEach_filter hl (fun text => decide (text ∉ allMembers others))
    (keepText cfg) hbody (createIntsetObject, 0)
  have hresult : (l.filter fun text => decide (text ∉ allMembers others)).toFinset =
      first.2.members \ allMembers others := by
    ext x
    simp [hl.members]
  have hcard : (first.2.members \ allMembers others).card ≤ first.2.members.card :=
    Finset.card_le_card Finset.sdiff_subset
  obtain ⟨hvalid, hempty⟩ := valid_createIntsetObject
  rw [foldlM_keepText hvalid (grows_createIntsetObject hroom) (hl.nodup.filter _) (by simp [hempty])
    (by rw [hempty, Finset.empty_union, hresult]; exact hcard)] at hloop
  obtain ⟨s', hbuild, hs', hmembers⟩ := @build_valid cfg
    (l.filter fun text => decide (text ∉ allMembers others)) (by rw [hresult]; omega)
  refine ⟨s', ?_, hs', by rw [hmembers, hresult]⟩
  rw [diffAlgorithm1, hloop, hbuild]

variable (hsmall : first.2.members.card < 2 ^ 31)
include hsmall

theorem diffAlgorithm2_spec :
    ∃ s', diffAlgorithm2 cfg first others = some (s', (s'.members.card : Int)) ∧ Valid s' ∧
      s'.members = first.2.members \ allMembers others := by
  obtain ⟨l, hl⟩ := (hdb first.1 first.2 hfirst).1
  have hfold : forEach first.2 (addCounting cfg) (createIntsetObject, 0) =
      l.foldlM (addText cfg) (createIntsetObject, 0) := hl.forEach_text (addText cfg) _
  rw [hl.members] at hroom hsmall ⊢
  obtain ⟨s₁, hbuild, hvalid, hmembers⟩ := build_valid cfg hroom
  rw [← hmembers] at hsmall ⊢
  rw [cInt_of_lt hsmall] at hbuild
  rw [diffAlgorithm2, hfold, hbuild]
  exact hvalid.stop_or (diffRest_spec hdb hothers hvalid hsmall)

/-- Both algorithms compute the difference. -/
theorem sdiffResult_spec (qsort : Qsort) :
    ∃ s', sunionDiffResult qsort cfg .diff (some first :: others) =
        some (s', cInt s'.members.card) ∧ Valid s' ∧
      s'.members = first.2.members \ allMembers others ∧ s'.members.card < 2 ^ 31 := by
  have hperm := qsort.perm qsortCompareSetsByRevCardinality others
  have hle : (first.2.members \ allMembers others).card < 2 ^ 31 :=
    (Finset.card_le_card Finset.sdiff_subset).trans_lt hsmall
  rw [sunionDiffResult]
  cases diffAlgo first.2 (some first :: others) with
  | one =>
    have hsorted : AreSources db (qsort.sort qsortCompareSetsByRevCardinality others) :=
      fun src hsrc => hothers src (hperm.mem_iff.mp hsrc)
    obtain ⟨s', halgo, hs', hmembers⟩ := diffAlgorithm1_spec hdb hfirst hsorted hroom
    rw [allMembers_perm hperm] at hmembers
    exact ⟨s', halgo, hs', hmembers, hmembers ▸ hle⟩
  | two =>
    obtain ⟨s', halgo, hs', hmembers⟩ := diffAlgorithm2_spec hdb hfirst hothers hroom hsmall
    rw [← hmembers] at hle
    refine ⟨s', ?_, hs', hmembers, hle⟩
    rw [cInt_of_lt hle]
    exact halgo

end Difference

/-- A union or a difference, by what is computed from the sources. -/
theorem sunionDiff_agrees (op : SetOp) {f : List (Finset Bytes) → Finset Bytes}
    (hresult : ∀ sets, sunionDiffSources db (key :: rest) = some sets →
      ∃ s, sunionDiffResult qsort cfg op sets = some (s, cInt s.members.card) ∧ Valid s ∧
        s.members = f (sets.map sourceMembers) ∧ (dst = none → s.members.card < 2 ^ 31)) :
    Agrees (sunionDiffGenericCommand qsort cfg db (key :: rest) dst op)
      (match Reference.sources (abstract db) (key :: rest) with
      | none => (abstract db, .exactly (.error wrongtypeerr))
      | some sets => Reference.answer (abstract db) (f sets) dst) := by
  rw [sunionDiffGenericCommand, sources_abstract]
  cases hsources : sunionDiffSources db (key :: rest) with
  | none => exact ⟨db, _, rfl, hdb, rfl, rfl⟩
  | some sets =>
    obtain ⟨s, hs, hvalid, hmembers, hsmall⟩ := hresult sets hsources
    simp only [hs, Option.bind_eq_bind, Option.bind_some, Option.map_some, ← hmembers]
    cases dst with
    | none =>
      obtain ⟨elements, hcollect, hnodup, hlisted⟩ := hvalid.listing
      simp only [sunionDiffReply, hcollect, Option.bind_eq_bind, Option.bind_some]
      rw [cInt_of_lt (hsmall rfl)]
      exact listing_agrees hdb hnodup hlisted
    | some dst => exact storeResult_agrees hdb hvalid dst

theorem sunion_agrees (hfits : Fits cfg db (.sunion key rest dst)) :
    Agrees (sunionDiffGenericCommand qsort cfg db (key :: rest) dst .union)
      (Reference.step (abstract db) (.sunion key rest dst)) := by
  rw [Fits, sources_abstract] at hfits
  apply sunionDiff_agrees hdb
  intro sets hsources
  obtain ⟨hroom, hsmall⟩ := hfits _ (by rw [hsources]; rfl)
  obtain ⟨hvalid, hempty⟩ := valid_createIntsetObject
  obtain ⟨s, hloop, hs, hmembers⟩ := unionLoop_spec hdb (isSource_of_sunionDiffSources hsources)
    hvalid (grows_createIntsetObject hroom) (by rw [hempty, Finset.empty_union]; rfl)
  rw [hempty, Finset.empty_union] at hmembers
  rw [hempty, Finset.card_empty] at hloop
  exact ⟨s, hloop, hs, hmembers, hmembers ▸ hsmall⟩

theorem sdiff_agrees (hfits : Fits cfg db (.sdiff key rest dst)) :
    Agrees (sunionDiffGenericCommand qsort cfg db (key :: rest) dst .diff)
      (Reference.step (abstract db) (.sdiff key rest dst)) := by
  rw [Fits, sources_abstract] at hfits
  apply sunionDiff_agrees hdb
  intro sets hsources
  rw [hsources] at hfits
  have hsets : AreSources db sets := isSource_of_sunionDiffSources hsources
  obtain ⟨hvalid, hempty⟩ := valid_createIntsetObject
  have hzero : createIntsetObject.members.card = 0 := by rw [hempty, Finset.card_empty]
  match sets with
  | [] => exact ⟨createIntsetObject, by rw [hzero]; rfl, hvalid, hempty, by omega⟩
  | none :: others =>
    refine ⟨createIntsetObject, by rw [hzero]; rfl, hvalid, ?_, by omega⟩
    exact (Finset.empty_sdiff _).symm
  | some first :: others =>
    obtain ⟨hroom, hsmall⟩ := hfits _ _ rfl
    obtain ⟨s, hdiff, hs, hmembers, hcard⟩ := sdiffResult_spec hdb hsets.head hsets.tail hroom
      hsmall qsort
    exact ⟨s, hdiff, hs, hmembers, fun _ => hcard⟩

end UnionDiff

end Redis.Sets

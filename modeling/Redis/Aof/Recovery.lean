import Redis.Aof.Load

/-! What is left of an append only file that was cut at some byte, and what becomes of
the commands that are appended to it afterwards. -/
namespace Redis.Aof

open ByteBuffer Util Resp List

variable {σ : Type}

/-- What the server writes to the file: single commands and whole transactions. -/
inductive Item where
  | command (argv : List Bytes)
  | transaction (cmds : List (List Bytes))
deriving DecidableEq, Repr

variable {r : Loaded σ} {s file p q : Bytes} {data : σ} {it : Item} {argv : List Bytes}
  {before n : Nat} {cmds done : List (List Bytes)} {srv : Server σ} {items : List Item}

/-- The commands that change the data set. -/
def Item.commands : Item → List (List Bytes)
  | .command argv => [argv]
  | .transaction cmds => cmds

/-- The commands that stand in the file. -/
def Item.written : Item → List (List Bytes)
  | .command argv => [argv]
  | .transaction cmds => [multiName] :: (cmds ++ [[execName]])

def Item.encode (it : Item) : Bytes := encodeAll it.written

def encodeItems (items : List Item) : Bytes := items.flatMap Item.encode

/-- The data set after all the items. -/
def replay (srv : Server σ) (items : List Item) : σ :=
  (items.flatMap Item.commands).foldl srv.call srv.init

/-- A well-formed command that is not one of those that delimit a transaction. -/
structure Plain (argv : List Bytes) : Prop extends WellSized argv where
  not_multi : (argv.head?.getD []).map toLower ≠ multiName.map toLower
  not_exec : (argv.head?.getD []).map toLower ≠ execName.map toLower

def Item.Valid (it : Item) : Prop := ∀ argv ∈ it.commands, Plain argv

def Item.Known (srv : Server σ) (it : Item) : Prop :=
  ∀ argv ∈ it.commands, srv.known (argv.head?.getD []) = true

/-- The longest prefix of the items that is complete in the first `n` bytes. -/
def completeItems : List Item → Nat → List Item
  | [], _ => []
  | it :: items, n =>
    if it.encode.length ≤ n then it :: completeItems items (n - it.encode.length) else []

/-- The cut is strictly inside one of these commands. -/
def cutInCommand : List (List Bytes) → Nat → Bool
  | [], _ => false
  | argv :: cmds, n =>
    if (catAppendOnlyGenericCommand argv).length ≤ n then
      cutInCommand cmds (n - (catAppendOnlyGenericCommand argv).length)
    else n ≠ 0

/-- The cut is behind `MULTI` and strictly inside a later command of the transaction. -/
def Item.cutInside : Item → Nat → Bool
  | .command _, _ => false
  | .transaction cmds, n =>
    decide ((catAppendOnlyGenericCommand [multiName]).length ≤ n) &&
      cutInCommand (cmds ++ [[execName]]) (n - (catAppendOnlyGenericCommand [multiName]).length)

def cutInTransaction : List Item → Nat → Bool
  | [], _ => false
  | it :: items, n =>
    if it.encode.length ≤ n then cutInTransaction items (n - it.encode.length) else it.cutInside n

/-- The file of these items, cut behind `n` bytes, is recovered: the load gives the data
set of the complete items, and if it truncates the file then whatever is appended
later is loaded on top of that data set. -/
def Recovers (items : List Item) (n : Nat) : Prop :=
  ∀ (σ : Type) (srv : Server σ), srv.aofLoadTruncated = true → (∀ it ∈ items, it.Known srv) →
    (loadAppendOnlyFile srv ((encodeItems items).take n)).dataset srv =
        some (replay srv (completeItems items n)) ∧
      ∀ data file, loadAppendOnlyFile srv ((encodeItems items).take n) = .ok data file true →
        ∀ more : List Item, (∀ it ∈ more, it.Valid ∧ it.Known srv) →
          (loadAppendOnlyFile srv (file ++ encodeItems more)).dataset srv =
            some (replay srv (completeItems items n ++ more))

section Loop

variable {queue : List (List Bytes)} {l : Loader σ}

/-- The loop from here on has this outcome, given enough rounds. -/
def Loads (srv : Server σ) (file : Bytes) (l : Loader σ) (s : Bytes) (r : Loaded σ) : Prop :=
  ∀ fuel, s.length < fuel → loadLoop srv file fuel l s = r

/-- The loader between two items that left this data set; `s` is still to be read. -/
def between (file : Bytes) (data : σ) (before : Nat) (s : Bytes) : Loader σ :=
  ⟨data, false, [], file.length - s.length, before⟩

/-- The loader inside a transaction. -/
def queueing (file : Bytes) (data : σ) (queue : List (List Bytes)) (before : Nat) (s : Bytes) :
    Loader σ :=
  ⟨data, true, queue, file.length - s.length, before⟩

theorem lookupCommand_plain (hargv : Plain argv) (hknown : srv.known (argv.head?.getD []) = true) :
    lookupCommand srv (argv.head?.getD []) = some .other := by
  rw [lookupCommand, if_neg hargv.not_multi, if_neg hargv.not_exec, if_pos hknown]

theorem wellSized_multi : WellSized [multiName] := ⟨by decide, by decide, by decide⟩

theorem wellSized_exec : WellSized [execName] := ⟨by decide, by decide, by decide⟩

theorem encoded_ne_nil (argv : List Bytes) : catAppendOnlyGenericCommand argv ≠ [] := by
  simp [catAppendOnlyGenericCommand, countLine]

theorem Loads.of_round
    (h : ∀ fuel, s.length ≤ fuel → loadLoop srv file (fuel + 1) l s = r) : Loads srv file l s r := by
  intro fuel hfuel
  obtain ⟨fuel, rfl⟩ := Nat.exists_eq_add_of_lt (Nat.zero_lt_of_lt hfuel)
  exact h _ (by omega)

theorem Loads.eof (data : σ) (before : Nat) :
    Loads srv file (between file data before []) [] (.ok data file false) :=
  .of_round fun _ _ => rfl

variable (htruncated : srv.aofLoadTruncated = true)
include htruncated

theorem Loads.command (hargv : WellSized argv) {l' : Loader σ}
    (hrun : runCommand srv l argv = some l')
    (h : Loads srv file { l' with validUpTo := file.length - s.length } s r) :
    Loads srv file l (catAppendOnlyGenericCommand argv ++ s) r := by
  refine .of_round fun fuel hfuel => ?_
  have hpos := length_pos_iff.mpr (encoded_ne_nil argv)
  rw [length_append] at hfuel
  rw [loadLoop, readCommand_encoded hargv]
  simp only [hrun, htruncated, if_true]
  exact h fuel (by omega)

/-- The end of the file between the commands of a transaction. -/
theorem Loads.eof_queueing (data : σ) (queue : List (List Bytes)) (before : Nat) :
    Loads srv file (queueing file data queue before []) [] (.ok data (file.take before) true) := by
  refine .of_round fun fuel _ => ?_
  rw [loadLoop, show readCommand [] = .eof from rfl]
  simp [queueing, unexpectedEof, htruncated]

/-- The end of the file inside a command. -/
theorem Loads.cut (hargv : WellSized argv) (l : Loader σ)
    (h : p ++ q = catAppendOnlyGenericCommand argv) (hp : p ≠ []) (hq : q ≠ []) :
    Loads srv file l p (.ok l.data (file.take l.validUpTo) true) := by
  refine .of_round fun fuel _ => ?_
  rw [loadLoop, readCommand_cut hargv h hp hq]
  simp [unexpectedEof, htruncated]

theorem Loads.plain (hargv : Plain argv) (hknown : srv.known (argv.head?.getD []) = true)
    (h : Loads srv file (between file (srv.call data argv) before s) s r) :
    Loads srv file (between file data before (catAppendOnlyGenericCommand argv ++ s))
      (catAppendOnlyGenericCommand argv ++ s) r := by
  have hrun : runCommand srv (between file data before (catAppendOnlyGenericCommand argv ++ s)) argv =
      some (between file (srv.call data argv) before (catAppendOnlyGenericCommand argv ++ s)) := by
    rw [runCommand, lookupCommand_plain hargv hknown]
    rfl
  exact Loads.command htruncated hargv.toWellSized hrun h

theorem Loads.multi (h : Loads srv file (queueing file data []
    (file.length - (catAppendOnlyGenericCommand [multiName] ++ s).length) s) s r) :
    Loads srv file (between file data before (catAppendOnlyGenericCommand [multiName] ++ s))
      (catAppendOnlyGenericCommand [multiName] ++ s) r :=
  Loads.command htruncated wellSized_multi rfl h

theorem Loads.exec (h : Loads srv file (between file (queue.foldl srv.call data) before s) s r) :
    Loads srv file (queueing file data queue before (catAppendOnlyGenericCommand [execName] ++ s))
      (catAppendOnlyGenericCommand [execName] ++ s) r :=
  Loads.command htruncated wellSized_exec rfl h

/-- Inside a transaction commands are only queued. -/
theorem Loads.queued (hplain : ∀ argv ∈ cmds, Plain argv)
    (hknown : ∀ argv ∈ cmds, srv.known (argv.head?.getD []) = true)
    (h : Loads srv file (queueing file data (queue ++ cmds) before s) s r) :
    Loads srv file (queueing file data queue before (encodeAll cmds ++ s)) (encodeAll cmds ++ s) r := by
  induction cmds generalizing queue with
  | nil =>
    rw [append_nil] at h
    exact h
  | cons argv cmds ih =>
    rw [forall_mem_cons] at hplain hknown
    have htail : Loads srv file (queueing file data (queue ++ [argv] ++ cmds) before s) s r := by
      rw [append_assoc]
      exact h
    have hrest := ih hplain.2 hknown.2 htail
    rw [encodeAll_cons, append_assoc]
    generalize encodeAll cmds ++ s = t at hrest ⊢
    have hrun : runCommand srv
        (queueing file data queue before (catAppendOnlyGenericCommand argv ++ t)) argv =
        some (queueing file data (queue ++ [argv]) before
          (catAppendOnlyGenericCommand argv ++ t)) := by
      rw [runCommand, lookupCommand_plain hplain.1 hknown.1]
      rfl
    exact Loads.command htruncated hplain.1.toWellSized hrun hrest

theorem Loads.item (hvalid : it.Valid) (hknown : it.Known srv)
    (h : ∀ before, Loads srv file (between file (it.commands.foldl srv.call data) before s) s r)
    (before : Nat) :
    Loads srv file (between file data before (it.encode ++ s)) (it.encode ++ s) r := by
  cases it with
  | command argv =>
    rw [Item.encode, Item.written, encodeAll_cons, encodeAll_nil, append_nil]
    exact Loads.plain htruncated (hvalid argv mem_cons_self) (hknown argv mem_cons_self)
      (h before)
  | transaction cmds =>
    rw [Item.encode, Item.written, encodeAll_cons, encodeAll_append, encodeAll_cons, encodeAll_nil,
      append_nil, append_assoc, append_assoc]
    exact Loads.multi htruncated (Loads.queued htruncated hvalid hknown
      (Loads.exec htruncated (h _)))

theorem Loads.all (hvalid : ∀ it ∈ items, it.Valid ∧ it.Known srv) (h : ∀ before,
      Loads srv file (between file ((items.flatMap Item.commands).foldl srv.call data) before s) s r)
    (before : Nat) :
    Loads srv file (between file data before (encodeItems items ++ s)) (encodeItems items ++ s) r := by
  induction items generalizing data before with
  | nil => exact h before
  | cons it items ih =>
    obtain ⟨⟨hit, hknown⟩, hrest⟩ := forall_mem_cons.mp hvalid
    rw [encodeItems, flatMap_cons, append_assoc]
    refine Loads.item htruncated hit hknown (fun b => ?_) before
    refine ih hrest ?_ b
    rw [flatMap_cons, foldl_append] at h
    exact h

end Loop

section Cut

theorem not_le_of_cut {a t : Bytes} (h : p ++ t = a) (ht : t ≠ []) : ¬ a.length ≤ p.length := by
  have hpos := length_pos_iff.mpr ht
  rw [← h, length_append]
  omega

/-- A cut of a row of commands falls at the start of one of them or inside it. -/
theorem encodeAll_cut (h : p ++ q = encodeAll cmds) (hq : q ≠ []) :
    ∃ done argv rest p' q', cmds = done ++ argv :: rest ∧ p = encodeAll done ++ p' ∧
      p' ++ q' = catAppendOnlyGenericCommand argv ∧ q' ≠ [] ∧
      cutInCommand cmds p.length = decide (p' ≠ []) := by
  induction cmds generalizing p with
  | nil => exact absurd (append_eq_nil_iff.mp h).2 hq
  | cons argv cmds ih =>
    rcases append_cut h with ⟨t, ht, hcut⟩ | ⟨t, rfl, hrest⟩
    · refine ⟨[], argv, cmds, p, t, rfl, rfl, hcut, ht, ?_⟩
      rw [cutInCommand, if_neg (not_le_of_cut hcut ht)]
      simp
    · obtain ⟨done, argv', rest, p', q', rfl, rfl, hcut, hq', hinside⟩ := ih hrest
      refine ⟨argv :: done, argv', rest, p', q', rfl, by simp, hcut, hq', ?_⟩
      rw [cutInCommand, if_pos (by simp), length_append, Nat.add_sub_cancel_left]
      exact hinside

/-- In front of the last command of a transaction only its own commands stand. -/
theorem mem_of_done {cmds done rest : List (List Bytes)} {argv last : List Bytes}
    (h : cmds ++ [last] = done ++ argv :: rest) : ∀ c ∈ done, c ∈ cmds := by
  intro c hc
  obtain rfl | ⟨rest, b, rfl⟩ := eq_nil_or_concat rest
  · rw [(append_inj' h rfl).1]
    exact hc
  · rw [concat_eq_append, ← cons_append, ← append_assoc] at h
    rw [(append_inj' h rfl).1]
    exact mem_append_left _ hc

/-- Where a file may end inside an item: inside its first command, or behind the
`MULTI` of a transaction, after some of its commands and with a piece of another. -/
inductive Torn (it : Item) (p : Bytes) : Prop where
  | first (argv : List Bytes) (q : Bytes) (sized : WellSized argv)
      (cut : p ++ q = catAppendOnlyGenericCommand argv) (ne_nil : q ≠ [])
      (outside : it.cutInside p.length = false)
  | later (done : List (List Bytes)) (argv : List Bytes) (p' q' : Bytes)
      (mem : ∀ c ∈ done, c ∈ it.commands) (sized : WellSized argv)
      (split : p = catAppendOnlyGenericCommand [multiName] ++ (encodeAll done ++ p'))
      (cut : p' ++ q' = catAppendOnlyGenericCommand argv) (ne_nil : q' ≠ [])
      (inside : it.cutInside p.length = decide (p' ≠ []))

theorem Item.torn (hvalid : it.Valid) (h : p ++ q = it.encode) (hq : q ≠ []) :
    Torn it p := by
  cases it with
  | command argv =>
    rw [Item.encode, Item.written, encodeAll_cons, encodeAll_nil, append_nil] at h
    exact .first argv q (hvalid argv mem_cons_self).toWellSized h hq rfl
  | transaction cmds =>
    rcases append_cut h with ⟨t, ht, hcut⟩ | ⟨t, rfl, hrest⟩
    · refine .first [multiName] t wellSized_multi hcut ht ?_
      rw [Item.cutInside, decide_eq_false (not_le_of_cut hcut ht), Bool.false_and]
    · obtain ⟨done, argv, rest, p', q', hcmds, rfl, hcut, hq', hinside⟩ := encodeAll_cut hrest hq
      have hsized : WellSized argv := by
        have hmem : argv ∈ cmds ++ [[execName]] := by simp [hcmds]
        rcases mem_append.mp hmem with hmem | hmem
        · exact (hvalid argv hmem).toWellSized
        · rw [mem_singleton.mp hmem]
          exact wellSized_exec
      refine .later done argv p' q' (mem_of_done hcmds) hsized rfl hcut hq' ?_
      rw [Item.cutInside, length_append]
      simpa using hinside

section

variable (htruncated : srv.aofLoadTruncated = true) (hvalid : it.Valid) (hknown : it.Known srv)
include htruncated hvalid hknown

/-- Behind `MULTI` and some commands of the transaction. -/
theorem Loads.opened (hdone : ∀ c ∈ done, c ∈ it.commands)
    (h : Loads srv file (queueing file data done
    (file.length - (catAppendOnlyGenericCommand [multiName] ++ (encodeAll done ++ s)).length) s) s r) :
    Loads srv file
      (between file data before (catAppendOnlyGenericCommand [multiName] ++ (encodeAll done ++ s)))
      (catAppendOnlyGenericCommand [multiName] ++ (encodeAll done ++ s)) r :=
  Loads.multi htruncated (Loads.queued htruncated (fun c hc => hvalid c (hdone c hc))
    (fun c hc => hknown c (hdone c hc)) h)

/-- The data set stays as it was before the item that is torn. Outside of later commands of a
transaction the file is truncated to whole items. -/
theorem Loads.torn (htorn : Torn it p) (hp : p ≠ []) (file : Bytes) (data : σ) :
    ∃ kept, (∀ before, Loads srv file (between file data before p) p (.ok data kept true)) ∧
      (it.cutInside p.length = false → kept = file.take (file.length - p.length)) := by
  cases htorn with
  | first argv q sized cut ne_nil outside =>
    exact ⟨_, fun _ => Loads.cut htruncated sized (between file data _ p) cut hp ne_nil, fun _ => rfl⟩
  | later done argv p' q' mem sized split cut ne_nil inside =>
    subst split
    rcases eq_or_ne p' [] with rfl | hp'
    · exact ⟨_, fun _ => Loads.opened htruncated hvalid hknown mem
        (Loads.eof_queueing htruncated _ _ _), fun _ => rfl⟩
    · exact ⟨_, fun _ => Loads.opened htruncated hvalid hknown mem
        (Loads.cut htruncated sized _ cut hp' ne_nil), fun hout =>
          absurd (inside.symm.trans hout) (by simp [hp'])⟩

end

/-- The complete items and the piece of the next one that the cut leaves. -/
theorem take_encodeItems (items : List Item) (n : Nat) :
    ((encodeItems items).take n = encodeItems (completeItems items n) ∧
        cutInTransaction items n = false) ∨
      ∃ it ∈ items, ∃ p q, p ++ q = it.encode ∧ p ≠ [] ∧ q ≠ [] ∧
        (encodeItems items).take n = encodeItems (completeItems items n) ++ p ∧
        cutInTransaction items n = it.cutInside p.length := by
  induction items generalizing n with
  | nil => exact .inl ⟨by simp [encodeItems, completeItems], rfl⟩
  | cons it items ih =>
    rw [encodeItems, flatMap_cons, completeItems, cutInTransaction]
    split_ifs with hfits
    · have hsplit : (it.encode ++ encodeItems items).take n =
          it.encode ++ (encodeItems items).take (n - it.encode.length) := by
        rw [take_append, take_of_length_le hfits]
      rcases ih (n - it.encode.length) with ⟨htake, hout⟩ | ⟨i, hi, p, q, hpq, hp, hq, htake, hin⟩
      · exact .inl ⟨hsplit.trans (by rw [htake]; rfl), hout⟩
      · refine .inr ⟨i, mem_cons_of_mem it hi, p, q, hpq, hp, hq, hsplit.trans ?_, hin⟩
        rw [htake, ← append_assoc]
        rfl
    · have hlt : n < it.encode.length := Nat.lt_of_not_le hfits
      rw [take_append_of_le_length (le_of_lt hlt)]
      rcases Nat.eq_zero_or_pos n with rfl | hpos
      · refine .inl ⟨rfl, ?_⟩
        cases it <;> rfl
      · refine .inr ⟨it, mem_cons_self, it.encode.take n, it.encode.drop n,
          take_append_drop n _, ?_, ?_, rfl, ?_⟩
        · exact ne_nil_of_length_pos (by rw [length_take]; omega)
        · exact ne_nil_of_length_pos (by rw [length_drop]; omega)
        · rw [length_take, min_eq_left (le_of_lt hlt)]

theorem completeItems_sublist (items : List Item) (n : Nat) : completeItems items n <+ items := by
  induction items generalizing n with
  | nil => exact nil_sublist _
  | cons it items ih =>
    rw [completeItems]
    split_ifs
    · exact (ih _).cons_cons it
    · exact nil_sublist _

end Cut

section Whole

/-- The encoding of an item starts with the `*` of its first command. -/
theorem Item.encode_head (it : Item) : it.encode.head? = some 42 := by
  cases it <;> rfl

/-- The load of a file that starts as a command does. -/
theorem Loads.whole (hhead : file.head? = some 42)
    (h : Loads srv file (between file srv.init 0 file) file r) :
    loadAppendOnlyFile srv file = r := by
  cases file with
  | nil => simp at hhead
  | cons b file =>
    obtain rfl : b = 42 := Option.some.inj hhead
    rw [loadAppendOnlyFile, if_neg (cons_ne_nil _ _), if_neg (by simp [rdbSignature])]
    have hstart : createAOFClient srv.init = between (42 :: file) srv.init 0 (42 :: file) := by
      simp [createAOFClient, between]
    rw [hstart]
    exact h _ (Nat.lt_succ_self _)

theorem head_of_cut (h : p ++ q = it.encode) (hp : p ≠ []) : p.head? = some 42 := by
  rw [← it.encode_head, ← h, head?_append_of_ne_nil p hp]

section

variable (hvalid : ∀ it ∈ items, it.Valid ∧ it.Known srv)
  (htruncated : srv.aofLoadTruncated = true)
include hvalid htruncated

/-- The load of a file that starts with whole items. -/
theorem load_behind (hhead : items = [] → s.head? = some 42)
    (h : ∀ before, Loads srv (encodeItems items ++ s)
    (between (encodeItems items ++ s) (replay srv items) before s) s r) :
    loadAppendOnlyFile srv (encodeItems items ++ s) = r := by
  refine Loads.whole ?_ (Loads.all htruncated hvalid h 0)
  cases items with
  | nil => exact hhead rfl
  | cons it items =>
    have hne : it.encode ≠ [] := fun hnil => by simpa [hnil] using it.encode_head
    rw [encodeItems, flatMap_cons, append_assoc, head?_append_of_ne_nil _ hne]
    exact it.encode_head

/-- A file of whole items is loaded as it is. -/
theorem load_items (hne : items ≠ []) : loadAppendOnlyFile srv (encodeItems items) =
      .ok (replay srv items) (encodeItems items) false := by
  have hload := load_behind (s := []) hvalid htruncated (fun hnil => absurd hnil hne)
    (fun before => Loads.eof _ before)
  rw [append_nil] at hload
  exact hload

theorem dataset_of_items :
    (loadAppendOnlyFile srv (encodeItems items)).dataset srv = some (replay srv items) := by
  rcases eq_or_ne items [] with rfl | hne
  · rfl
  · rw [load_items hvalid htruncated hne]
    rfl

end

theorem encodeItems_append (l m : List Item) :
    encodeItems (l ++ m) = encodeItems l ++ encodeItems m := flatMap_append

/-- Outside of the later commands of a transaction a cut does no harm. -/
theorem recovers_of_outside (hvalid : ∀ it ∈ items, it.Valid)
    (hout : cutInTransaction items n = false) : Recovers items n := by
  intro σ srv htruncated hknown
  have hcomplete : ∀ it ∈ completeItems items n, it.Valid ∧ it.Known srv := fun it hit =>
    have hmem := (completeItems_sublist items n).mem hit
    ⟨hvalid it hmem, hknown it hmem⟩
  rcases take_encodeItems items n with ⟨htake, -⟩ | ⟨it, hit, p, q, hpq, hp, hq, htake, hin⟩
  · -- the cut is between two items and the file is left as it is
    rw [htake]
    refine ⟨dataset_of_items hcomplete htruncated, fun data file hload => ?_⟩
    rcases eq_or_ne (completeItems items n) [] with hnil | hne
    · rw [hnil] at hload
      cases hload
    · rw [load_items hcomplete htruncated hne] at hload
      cases hload
  · obtain ⟨kept, hload, hkept⟩ := Loads.torn htruncated (hvalid it hit) (hknown it hit)
      (Item.torn (hvalid it hit) hpq hq) hp _ (replay srv (completeItems items n))
    rw [htake, load_behind hcomplete htruncated (fun _ => head_of_cut hpq hp) hload]
    refine ⟨rfl, fun data file heq more hmore => ?_⟩
    cases heq
    rw [hkept (hin ▸ hout), length_append, Nat.add_sub_cancel, take_left, ← encodeItems_append]
    exact dataset_of_items (forall_mem_append.mpr ⟨hcomplete, hmore⟩) htruncated

/-- The server whose data set is the list of the commands it executed. -/
def traceServer : Server (List (List Bytes)) where
  known _ := true
  call done argv := done ++ [argv]
  init := []
  aofLoadTruncated := true
  rdbLoadRio _ := .error false

theorem known_traceServer (it : Item) : it.Known traceServer := fun _ _ => rfl

def ping : List Bytes := [[112, 105, 110, 103]]

theorem plain_ping : Plain ping where
  ne_nil := by decide
  argc := by decide
  len := by decide
  not_multi := by decide
  not_exec := by decide

theorem valid_ping : (Item.command ping).Valid := fun _ hc => mem_singleton.mp hc ▸ plain_ping

/-- Inside a later command of a transaction the next command that is appended is lost. -/
theorem not_recovers_of_inside (hvalid : ∀ it ∈ items, it.Valid)
    (hinside : cutInTransaction items n = true) : ¬ Recovers items n := by
  intro hrecovers
  have hcomplete : ∀ it ∈ completeItems items n, it.Valid ∧ it.Known traceServer := fun it hit =>
    ⟨hvalid it ((completeItems_sublist items n).mem hit), known_traceServer it⟩
  obtain ⟨-, hlater⟩ := hrecovers _ traceServer rfl fun it _ => known_traceServer it
  rcases take_encodeItems items n with ⟨-, hout⟩ | ⟨it, hit, p, q, hpq, hp, hq, htake, hin⟩
  · simp [hout] at hinside
  · cases Item.torn (hvalid it hit) hpq hq with
    | first argv q sized cut ne_nil outside => simp [hin, outside] at hinside
    | later done argv p' q' mem sized split cut ne_nil inside =>
      have hp' : p' ≠ [] := by simpa [hin, inside] using hinside
      -- the file keeps `MULTI` and the commands behind it that are complete
      have hkept : encodeItems (completeItems items n) ++ p = encodeItems (completeItems items n) ++
          (catAppendOnlyGenericCommand [multiName] ++ encodeAll done) ++ p' := by simp [split]
      have hfirst := load_behind hcomplete rfl (fun _ => rfl) fun _ => Loads.opened rfl (hvalid it hit)
        (known_traceServer it) mem (Loads.cut rfl sized _ cut hp' ne_nil)
      simp only [queueing] at hfirst
      rw [← split, hkept, length_append, Nat.add_sub_cancel, take_left, ← hkept, ← htake] at hfirst
      have hextended := hlater _ _ hfirst [.command ping] fun i hi =>
        mem_singleton.mp hi ▸ ⟨valid_ping, known_traceServer _⟩
      -- the second load queues the command that was appended and drops it
      have hqueued : (Item.transaction (done ++ [ping])).Valid := fun c hc =>
        (mem_append.mp hc).elim (fun hc => hvalid it hit c (mem c hc)) (valid_ping c)
      have hsame : (encodeItems (completeItems items n) ++
            (catAppendOnlyGenericCommand [multiName] ++ encodeAll done)) ++
            encodeItems [.command ping] =
          encodeItems (completeItems items n) ++
            (catAppendOnlyGenericCommand [multiName] ++ encodeAll (done ++ [ping])) := by
        simp [encodeItems, Item.encode, Item.written]
      have hsecond := load_behind
        (s := catAppendOnlyGenericCommand [multiName] ++ (encodeAll (done ++ [ping]) ++ []))
        hcomplete rfl (fun _ => rfl) fun _ => Loads.opened rfl hqueued (known_traceServer _)
          (fun c hc => hc) (Loads.eof_queueing rfl _ _ _)
      rw [append_nil] at hsecond
      rw [hsame, hsecond] at hextended
      have hlost := congrArg List.length (Option.some.inj hextended)
      simp [replay, traceServer, Item.commands] at hlost

end Whole

/-- Wherever a file is cut, the commands and transactions that are complete are replayed and no
others: a transaction is never applied in part. -/
theorem cut_file_replays_complete (srv : Server σ) (htruncated : srv.aofLoadTruncated = true)
    (items : List Item) (hitems : ∀ it ∈ items, it.Valid ∧ it.Known srv) (n : Nat) :
    (loadAppendOnlyFile srv ((encodeItems items).take n)).dataset srv =
      some (replay srv (completeItems items n)) := by
  have hcomplete : ∀ it ∈ completeItems items n, it.Valid ∧ it.Known srv := fun it hit =>
    hitems it ((completeItems_sublist items n).mem hit)
  rcases take_encodeItems items n with ⟨htake, -⟩ | ⟨it, hit, p, q, hpq, hp, hq, htake, -⟩
  · rw [htake]
    exact dataset_of_items hcomplete htruncated
  · obtain ⟨hvalid, hknown⟩ := hitems it hit
    obtain ⟨kept, hload, -⟩ := Loads.torn htruncated hvalid hknown (Item.torn hvalid hpq hq) hp _
      (replay srv (completeItems items n))
    rw [htake, load_behind hcomplete htruncated (fun _ => head_of_cut hpq hp) hload]
    rfl

theorem cut_file_replays_complete_multi : (loadAppendOnlyFile traceServer
    ((encodeItems [.transaction [ping]]).take 20)).dataset traceServer = some [] :=
  cut_file_replays_complete traceServer rfl [.transaction [ping]]
    (forall_mem_singleton.mpr ⟨valid_ping, known_traceServer _⟩) 20

/-- A cut file is recovered, for whatever is appended later, exactly if the cut is not
strictly inside a command that follows the `MULTI` of its transaction. -/
theorem truncated_file_recovers_iff {items : List Item} (hvalid : ∀ it ∈ items, it.Valid) (n : Nat) :
    Recovers items n ↔ cutInTransaction items n = false := by
  constructor
  · intro hrecovers
    by_contra hinside
    exact not_recovers_of_inside hvalid (Bool.eq_true_of_not_eq_false hinside) hrecovers
  · exact recovers_of_outside hvalid

/-- The file of one transaction with one command, cut between the two. -/
theorem truncated_file_recovers_iff_between :
    (∀ it ∈ [Item.transaction [ping]], it.Valid) ∧ Recovers [.transaction [ping]] 15 := by
  have hvalid : ∀ it ∈ [Item.transaction [ping]], it.Valid := fun it hit =>
    mem_singleton.mp hit ▸ valid_ping
  exact ⟨hvalid, (truncated_file_recovers_iff hvalid 15).mpr (by decide)⟩

/-- The same file, cut inside the command. The first load keeps `MULTI` in the file, and
the second one takes what was appended for a part of the transaction. -/
theorem truncated_file_not_recovered : ¬ Recovers [.transaction [ping]] 20 := by
  intro hrecovers
  obtain ⟨-, hlater⟩ := hrecovers _ traceServer rfl fun it _ => known_traceServer it
  have hload : loadAppendOnlyFile traceServer ((encodeItems [.transaction [ping]]).take 20) =
      .ok [] (catAppendOnlyGenericCommand [multiName]) true := by decide
  have hextended := hlater _ _ hload [.command ping] fun i hi =>
    mem_singleton.mp hi ▸ ⟨valid_ping, known_traceServer _⟩
  exact absurd hextended (by decide)

end Redis.Aof

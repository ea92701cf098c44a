import Redis.Strings.Commands

/-! `BITOP` with its fast path: groups of four words as far as every source reaches, and the
loop over bytes for the rest. -/
namespace Redis.Strings

open ByteBuffer Shared List Function

/-- The memory from the first byte of a string on. -/
abbrev Mem : Type := Nat → UInt8

def loadWord (m : Mem) (p : Nat) : Nat := readLE 8 ((range 8).map fun i => m (p + i))

def storeWord (m : Mem) (p w : Nat) : Mem := fun q =>
  if p ≤ q ∧ q < p + 8 then (leBytes 8 w).getD (q - p) 0 else m q

/-- The operation of the loops over the other sources, on words. -/
def Bitop.word : Bitop → Nat → Nat → Nat
  | .and, u, v => u &&& v
  | .or, u, v => u ||| v
  | .xor, u, v => u ^^^ v
  | .not, u, _ => u

/-- Four words of the result, each with the word of a source. -/
def bitopGroup (word : Nat → Nat → Nat) (j : Nat) (res s : Mem) : Mem :=
  [j, j + 8, j + 16, j + 24].foldl
    (fun res p => storeWord res p (word (loadWord res p) (loadWord s p))) res

/-- One round of the fast path; the complement flips all the 64 bits. -/
def bitopRound (op : Bitop) (rest : List Mem) (j : Nat) (res : Mem) : Mem :=
  if op = .not then bitopGroup (fun w _ => w ^^^ (2 ^ 64 - 1)) j res res
  else rest.foldl (bitopGroup op.word j) res

def bitopFast (op : Bitop) (rest : List Mem) (res : Mem) (j minlen : Nat) : Mem × Nat :=
  if 32 ≤ minlen then bitopFast op rest (bitopRound op rest j res) (j + 32) (minlen - 32)
  else (res, j)
termination_by minlen

/-- The result of the fast path and the number of its bytes that are done; `junk` is what lies
behind a string. -/
def bitopStart (junk : Bytes → Mem) (op : Bitop) (src : List Bytes) (minlen : Nat) : Mem × Nat :=
  if 32 ≤ minlen ∧ src.length ≤ 16 then
    let mems : List Mem := src.map fun s q => s.getD q (junk s q)
    bitopFast op mems.tail (fun q => if q < minlen then mems.headD 0 q else 0) 0 minlen
  else (0, 0)

def bitopResult (junk : Bytes → Mem) (op : Bitop) (src : List Bytes) (minlen maxlen : Nat) : Bytes :=
  let (res, j) := bitopStart junk op src minlen
  let res := (range' j (maxlen - j)).foldl (fun res j => update res j (bitopByte op src j)) res
  (range maxlen).map res

/-- The running minimum; a missing key sets it to 0. -/
def bitopMinlen (db : Db) : List Bytes → Nat → Nat → Nat
  | [], _, minlen => minlen
  | key :: keys, j, minlen =>
    bitopMinlen db keys (j + 1)
      (match db key with
      | some (.str s) => if j = 0 ∨ s.length < minlen then s.length else minlen
      | _ => 0)

/-- `bitopCommand` with the result of both loops. -/
def bitopCommandWords (junk : Bytes → Mem) (db : Db) (opname target : Bytes) (keys : List Bytes) :
    Outcome :=
  match parseBitop opname with
  | none => .done (.error syntaxerr) db
  | some op =>
    if op = .not ∧ keys.length ≠ 1 then
      .done (.error (addReplyError "BITOP NOT must be called with a single source key.")) db
    else
      match bitopSources db keys with
      | none => .done (.error wrongtypeerr) db
      | some src =>
        let maxlen : Nat := src.foldl (fun m s => max m s.length) 0
        if maxlen ≠ 0 then
          .done (.integer maxlen)
            (db.set target (bitopResult junk op src (bitopMinlen db keys 0 0) maxlen))
        else .done (.integer maxlen) (db.delete target)

/-- The operation on one byte of every source. -/
def Bitop.pointwise : Bitop → List UInt8 → UInt8
  | .and, bs => bs.foldl (· &&& ·) 255
  | .or, bs => bs.foldl (· ||| ·) 0
  | .xor, bs => bs.foldl (· ^^^ ·) 0
  | .not, bs => ~~~bs.headD 0

def Bitop.byte : Bitop → UInt8 → UInt8 → UInt8
  | .and, a, b => a &&& b
  | .or, a, b => a ||| b
  | .xor, a, b => a ^^^ b
  | .not, a, _ => a

/-- The bytes from `a` to `b`, each combined with those of other strings. -/
def combined (op : Bitop) (ss : List Mem) (a b : Nat) (res : Mem) : Mem := fun q =>
  if a ≤ q ∧ q < b then ss.foldl (fun x s => op.byte x (s q)) (res q) else res q

variable {op op' : Bitop} {res s : Mem} {first : Bytes} {src rest : List Bytes} {ss ms : List Mem}
  {a b c j p n minlen maxlen : Nat}

theorem leBytes_word (op : Bitop) (n u v : Nat) :
    leBytes n (op.word u v) = zipWith op.byte (leBytes n u) (leBytes n v) := by
  induction n generalizing u v with
  | zero => rfl
  | succ n ih =>
    have hdiv : op.word u v / 256 = op.word (u / 256) (v / 256) := by
      cases op with
      | and => exact Nat.and_div_two_pow (n := 8)
      | or => exact Nat.or_div_two_pow (n := 8)
      | xor => exact Nat.xor_div_two_pow (n := 8)
      | not => rfl
    rw [leBytes, leBytes, leBytes, zipWith_cons_cons, ← ih, ← hdiv]
    cases op <;> simp [Bitop.word, Bitop.byte]

/-- A word is combined byte by byte. -/
theorem storeWord_word : storeWord res p (op.word (loadWord res p) (loadWord s p)) =
    combined op [s] p (p + 8) res := by
  funext q
  rw [storeWord, combined, leBytes_word, loadWord, loadWord, leBytes_readLE (by simp),
    leBytes_readLE (by simp)]
  split_ifs with hq
  · have hlt : q - p < 8 := by omega
    simp [hlt, hq.1]
  · rfl

theorem combined_trans (hab : a ≤ b) (hbc : b ≤ c) :
    combined op ss b c (combined op ss a b res) = combined op ss a c res := by
  funext q
  simp only [combined]
  split_ifs <;> first | rfl | omega

theorem combined_self : combined op ss a a res = res := by
  funext q
  rw [combined, if_neg (by omega)]

theorem bitopGroup_eq : bitopGroup op.word j res s = combined op [s] j (j + 32) res := by
  simp only [bitopGroup, foldl_cons, foldl_nil, storeWord_word]
  rw [combined_trans (by omega) (by omega), combined_trans (by omega) (by omega),
    combined_trans (by omega) (by omega)]

theorem foldl_bitopGroup :
    ss.foldl (bitopGroup op.word j) res = combined op ss j (j + 32) res := by
  induction ss generalizing res with
  | nil =>
    funext q
    exact (ite_self _).symm
  | cons s ss ih =>
    rw [foldl_cons, bitopGroup_eq, ih]
    funext q
    simp only [combined]
    split_ifs <;> rfl

/-- What a round does to each byte; the complement is the exclusive or with ones. -/
theorem bitopRound_eq (op : Bitop) (ss : List Mem) :
    ∃ op' ms, (∀ j res, bitopRound op ss j res = combined op' ms j (j + 32) res) ∧
      ∀ x q, ms.foldl (fun x s => op'.byte x (s q)) x =
        if op = .not then ~~~x else ss.foldl (fun x s => op.byte x (s q)) x := by
  by_cases hop : op = .not
  · refine ⟨.xor, [fun _ => 255], fun j res => ?_, fun x q => ?_⟩
    · have hones : ∀ p, loadWord (fun _ => 255) p = 2 ^ 64 - 1 := fun p => by
        rw [loadWord]
        decide
      rw [bitopRound, if_pos hop, ← bitopGroup_eq]
      simp only [bitopGroup, hones, Bitop.word]
    · rw [if_pos hop]
      exact UInt8.xor_neg_one
  · exact ⟨op, ss, fun j res => by rw [bitopRound, if_neg hop, foldl_bitopGroup],
      fun x q => (if_neg hop).symm⟩

theorem bitopFast_eq (hround : ∀ j res, bitopRound op ss j res = combined op' ms j (j + 32) res) :
    ∃ k, j ≤ k ∧ k ≤ j + minlen ∧ bitopFast op ss res j minlen = (combined op' ms j k res, k) := by
  induction minlen using Nat.strong_induction_on generalizing j res with
  | _ minlen ih =>
    rw [bitopFast]
    split_ifs with hmore
    · obtain ⟨k, hjk, hk, hfast⟩ := @ih (minlen - 32) (by omega) (bitopRound op ss j res) (j + 32)
      refine ⟨k, by omega, by omega, ?_⟩
      rw [hfast, hround, combined_trans (by omega) hjk]
    · exact ⟨j, le_refl _, by omega, by rw [combined_self]⟩

theorem foldl_update (f : Nat → UInt8) (q : Nat) :
    (range' j n).foldl (fun res j => update res j (f j)) res q =
      if j ≤ q ∧ q < j + n then f q else res q := by
  induction n generalizing j res with
  | zero => exact (if_neg (by omega)).symm
  | succ n ih =>
    rw [range'_succ, foldl_cons, ih, update_apply]
    rcases eq_or_ne q j with rfl | hne
    · simp
    · have hiff : j + 1 ≤ q ∧ q < j + 1 + n ↔ j ≤ q ∧ q < j + (n + 1) := by omega
      rw [if_neg hne, if_congr hiff rfl rfl]

theorem bitopStart_spec (junk : Bytes → Mem) (hnot : op = .not → rest = [])
    (hmin : ∀ s ∈ first :: rest, minlen ≤ s.length) {q : Nat}
    (hq : q < (bitopStart junk op (first :: rest) minlen).2) :
    (bitopStart junk op (first :: rest) minlen).1 q = bitopByte op (first :: rest) q := by
  rw [bitopStart] at hq ⊢
  split_ifs at hq ⊢
  · simp only [map_cons, tail_cons, headD_cons] at hq ⊢
    obtain ⟨op', ms, hround, hbyte⟩ := bitopRound_eq op (rest.map fun s q => s.getD q (junk s q))
    obtain ⟨k, -, hk, heq⟩ := bitopFast_eq (j := 0) hround
    rw [heq] at hq ⊢
    have hlt : q < minlen := hq.trans_le (hk.trans (zero_add _).le)
    have hread : ∀ s ∈ first :: rest, s.getD q (junk s q) = s.getD q 0 := by
      intro s hs
      have hlen := hlt.trans_le (hmin s hs)
      rw [getD_eq_getElem _ _ hlen, getD_eq_getElem _ _ hlen]
    obtain ⟨hfirst, hrest⟩ := forall_mem_cons.mp hread
    simp only [combined]
    rw [if_pos ⟨Nat.zero_le _, hq⟩, if_pos hlt, hbyte, hfirst, foldl_map,
      foldl_ext _ _ _ fun x s hs => congrArg (op.byte x) (hrest s hs)]
    cases op with
    | and | or | xor => rfl
    | not =>
      obtain rfl := hnot rfl
      rfl
  · exact absurd hq (Nat.not_lt_zero q)

/-- The two loops together compute every byte as the loop over bytes does. -/
theorem bitopResult_eq (junk : Bytes → Mem) (hnot : op = .not → rest = [])
    (hmin : ∀ s ∈ first :: rest, minlen ≤ s.length) :
    bitopResult junk op (first :: rest) minlen maxlen =
      (range maxlen).map (bitopByte op (first :: rest)) := by
  have hdone := fun q => bitopStart_spec junk hnot hmin (q := q)
  rw [bitopResult]
  generalize bitopStart junk op (first :: rest) minlen = start at hdone
  refine map_congr_left fun q hq => ?_
  have hq' := mem_range.mp hq
  rw [foldl_update]
  split_ifs
  · rfl
  · exact hdone q (by omega)

/-- No source is shorter than the running minimum. -/
theorem bitopMinlen_le {db : Db} {keys : List Bytes} (h : bitopSources db keys = some src)
    (j minlen : Nat) : (0 < j → bitopMinlen db keys j minlen ≤ minlen) ∧
      ∀ s ∈ src, bitopMinlen db keys j minlen ≤ s.length := by
  induction keys generalizing src j minlen with
  | nil =>
    cases h
    exact ⟨fun _ => le_refl _, nofun⟩
  | cons key keys ih =>
    rw [bitopSources] at h
    rw [bitopMinlen]
    split at h
    · cases h
    all_goals
      rename_i hkey
      obtain ⟨src, hsrc, rfl⟩ := Option.map_eq_some_iff.mp h
      obtain ⟨hle, hrun⟩ := ih hsrc (j + 1) _
      have hle' := hle (Nat.succ_pos j)
      simp only [hkey] at hle' hrun ⊢
      refine ⟨fun hj => hle'.trans ?_, forall_mem_cons.mpr ⟨hle'.trans ?_, hrun⟩⟩
    · split_ifs <;> omega
    · split_ifs <;> omega
    · exact Nat.zero_le _
    · exact Nat.zero_le _

theorem bitopByte_pointwise (hnot : op = .not → rest = []) (q : Nat) :
    bitopByte op (first :: rest) q = op.pointwise ((first :: rest).map fun s => s.getD q 0) := by
  cases op with
  | and =>
    have hones : 255 &&& first.getD q 0 = first.getD q 0 := UInt8.neg_one_and
    rw [Bitop.pointwise, map_cons, foldl_cons, hones, foldl_map]
    rfl
  | or | xor => simp [Bitop.pointwise, bitopByte, foldl_map]
  | not =>
    obtain rfl := hnot rfl
    rfl

/-- The result of `BITOP` is the operation on every byte of the sources, extended with zeros to
the length of the longest one, and the two loops agree. -/
theorem bitop_pointwise (junk : Bytes → Mem) (db : Db) {opname : Bytes} (target : Bytes)
    {keys : List Bytes} (hop : parseBitop opname = some op) (hnot : op = .not → keys.length = 1)
    (hsrc : bitopSources db keys = some src)
    (hmaxlen : src.foldl (fun m s => max m s.length) 0 = maxlen) :
    bitopCommandWords junk db opname target keys = bitopCommand db opname target keys ∧
      bitopCommandWords junk db opname target keys = .done (.integer maxlen)
        (if maxlen = 0 then db.delete target
        else db.set target ((range maxlen).map fun i => op.pointwise (src.map fun s => s.getD i 0))) := by
  have hguard : ¬ (op = .not ∧ keys.length ≠ 1) := fun h => h.2 (hnot h.1)
  simp only [bitopCommandWords, bitopCommand, hop, hsrc, hmaxlen]
  rw [if_neg hguard, if_neg hguard]
  cases src with
  | nil =>
    subst hmaxlen
    exact ⟨rfl, rfl⟩
  | cons first rest =>
    have hrest : op = .not → rest = [] := by
      intro h
      obtain ⟨key, rfl⟩ := length_eq_one_iff.mp (hnot h)
      rw [bitopSources, bitopSources] at hsrc
      split at hsrc <;> cases hsrc <;> rfl
    simp only [bitopResult_eq junk hrest (bitopMinlen_le hsrc 0 0).2, ← bitopByte_pointwise hrest]
    rw [ite_not]
    exact ⟨trivial, (apply_ite _ _ _ _).symm⟩

/-- A source of 33 bytes, and all others of 40. -/
def longSources : Db := fun key =>
  some (.str (if key = [97] then replicate 33 1 else replicate 40 6))

/-- Four words are combined at once, then single bytes, and the last bytes of the longer source
meet zeros. -/
theorem bitop_pointwise_words :
    bitopCommandWords (fun _ _ => 7) longSources [111, 114] [116] [[97], [98]] =
      .done (.integer 40) (longSources.set [116] (replicate 33 7 ++ replicate 7 6)) := by
  have hop : parseBitop [111, 114] = some .or := by decide
  have hsrc : bitopSources longSources [[97], [98]] = some [replicate 33 1, replicate 40 6] := rfl
  exact (bitop_pointwise (fun _ _ => 7) longSources [116] hop nofun hsrc rfl).2

end Redis.Strings

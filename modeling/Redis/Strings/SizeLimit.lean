import Redis.Library.Simulation
import Redis.Strings.Commands

/-! The limit of 512 MB on string values under the commands that write to part of a
string: where it holds, and the offsets with which it does not. -/
namespace Redis.Strings

open ByteBuffer Util Shared List Option

variable {thisop : BitfieldOp} {key offset s type value : Bytes} {start : Int} {src : List Bytes}
  {bound len : Nat} {opcode : Opcode} {owtype : Overflow}

inductive StringCommand where
  | append (key value : Bytes)
  | setrange (key offset value : Bytes)
  | setbit (key offset on : Bytes)
  | bitfield (key : Bytes) (args : List Bytes)
  | bitop (opname target : Bytes) (keys : List Bytes)

def StringCommand.args : StringCommand → List Bytes
  | .append key value => [key, value]
  | .setrange key offset value => [key, offset, value]
  | .setbit key offset on => [key, offset, on]
  | .bitfield key args => key :: args
  | .bitop opname target keys => opname :: target :: keys

/-- The parser of requests lets no longer argument through. -/
def StringCommand.FromClient (cmd : StringCommand) : Prop :=
  ∀ a ∈ cmd.args, a.length ≤ protoMaxBulkLen

def execute (c : Client) (db : Db) : StringCommand → Outcome
  | .append key value => appendCommand c db key value
  | .setrange key offset value => setrangeCommand c db key offset value
  | .setbit key offset on => setbitCommand db key offset on
  | .bitfield key args => bitfieldCommand db key args
  | .bitop opname target keys => bitopCommand db opname target keys

/-- A server that aborted stays down. -/
def stringStep (c : Client) : Option Db → StringCommand → Option Db × Option Reply
  | none, _ => (none, none)
  | some db, cmd =>
    match execute c db cmd with
    | .done reply db => (some db, some reply)
    | .abort => (none, none)

def Within (db : Db) : Prop := ∀ key s, db key = some (.str s) → s.length ≤ protoMaxBulkLen

/-- The offset of a field as an integer without bounds. -/
def exactOffset (o : Bytes) (bits : Nat) : Option Int :=
  if o.head? = some 35 then (string2ll o.tail).map (· * (bits : Int)) else string2ll o

/-- A field that a `SET` or an `INCRBY` among the arguments names: its first bit and its width. -/
inductive WritesField (args : List Bytes) (start : Int) (bits : Nat) : Prop where
  | intro (opcode : Opcode) (type offset value : Bytes) (sign : Bool)
      (mem : .field opcode type offset value ∈ subcommands args.length args)
      (writes : opcode ≠ .get)
      (width : getBitfieldTypeFromArgument type = .ok (sign, bits))
      (place : exactOffset offset bits = some start)

/-- The length of the string of a key. -/
def strlen (db : Db) (key : Bytes) : Nat :=
  match db key with
  | some (.str s) => s.length
  | _ => 0

/-- The command asks for a string that is longer than the limit. -/
def Exceeds (db : Db) : StringCommand → Prop
  | .append key value => protoMaxBulkLen < strlen db key + value.length
  | .setrange _ offset value =>
    value ≠ [] ∧ ∃ n, string2ll offset = some n ∧ 0 ≤ n ∧ (protoMaxBulkLen : Int) < n + value.length
  | .setbit _ offset _ => ∃ n, string2ll offset = some n ∧ 8 * (protoMaxBulkLen : Int) ≤ n
  | .bitfield _ args =>
    ∃ start bits, WritesField args start bits ∧ 0 ≤ start ∧
      8 * (protoMaxBulkLen : Int) < start + bits
  | .bitop _ _ keys =>
    ∃ src, bitopSources db keys = some src ∧
      protoMaxBulkLen < src.foldl (fun m s => max m s.length) 0

/-- The strings stay within the limit, and what asks for more is refused. -/
def Respects (c : Client) (db : Db) (cmd : StringCommand) : Prop :=
  ∃ reply db', execute c db cmd = .done reply db' ∧ Within db' ∧
    (Exceeds db cmd → reply.isError = true ∧ db' = db)

/-- The sum of `SETRANGE` stays below the sign bit; the offset of a field does not wrap
around; and no field starts within the limit and ends behind it. -/
def LengthsFit : StringCommand → Prop
  | .setrange _ offset value => ∀ n, string2ll offset = some n → n + value.length < 2 ^ 63
  | .bitfield _ args =>
    ∀ start bits, WritesField args start bits →
      -2 ^ 63 ≤ start ∧ start < 2 ^ 63 ∧
        (start < 8 * (protoMaxBulkLen : Int) → start + bits ≤ 8 * (protoMaxBulkLen : Int))
  | _ => True

variable {c : Client} {db : Db}
variable {bits : Nat} {cmd : StringCommand} {ops : List BitfieldOp} {o : Bytes}

theorem toLongLong_of_lt {v : Nat} (h : v < 2 ^ 63) : toLongLong v = v :=
  Int.bmod_eq_of_le (by omega) (by omega)

theorem Within.update (hdb : Within db) (key : Bytes) {o : Option Obj}
    (ho : ∀ s, o = some (.str s) → s.length ≤ protoMaxBulkLen) :
    Within (Function.update db key o) := by
  intro k t ht
  rw [Function.update_apply] at ht
  split_ifs at ht
  · exact ho t ht
  · exact hdb k t ht

theorem Within.set (hdb : Within db) (hs : s.length ≤ protoMaxBulkLen) :
    Within (db.set key s) :=
  hdb.update key (by rintro _ ⟨⟩; exact hs)

/-- A reply that is an error and changes nothing. -/
theorem Respects.of_error (hdb : Within db) {err : String}
    (h : execute c db cmd = .done (.error err) db) : Respects c db cmd :=
  ⟨_, _, h, hdb, fun _ => ⟨rfl, rfl⟩⟩

/-- A command that asks for nothing too long and stores nothing too long. -/
theorem Respects.of_within {reply : Reply} {db' : Db} (h : execute c db cmd = .done reply db')
    (hdb : Within db') (hsmall : ¬ Exceeds db cmd) : Respects c db cmd :=
  ⟨_, _, h, hdb, fun hexceeds => absurd hexceeds hsmall⟩

theorem checkStringLength_iff (hc : c.master = false) (size : Int) :
    checkStringLength c size = true ↔ size ≤ protoMaxBulkLen := by
  simp [checkStringLength, hc]

theorem append_respects (hc : c.master = false) (hdb : Within db) (key value : Bytes)
    (hvalue : value.length ≤ protoMaxBulkLen) : Respects c db (.append key value) := by
  cases ho : db key with
  | none =>
    have h : execute c db (.append key value) =
        .done (.integer value.length) (db.set key value) := by
      simp only [execute, appendCommand, ho]
    refine .of_within h (hdb.set hvalue) ?_
    simp only [Exceeds, strlen, ho]
    omega
  | some o =>
    cases o with
    | other => exact .of_error hdb (by simp only [execute, appendCommand, ho]; rfl)
    | str s =>
      have hs := hdb key s ho
      have hsum : toLongLong (s.length + value.length) = (s.length + value.length : Nat) :=
        toLongLong_of_lt (by rw [protoMaxBulkLen] at hs hvalue; omega)
      by_cases hfit : s.length + value.length ≤ protoMaxBulkLen
      · have hcheck := (checkStringLength_iff hc (toLongLong (s.length + value.length))).mpr
          (by rw [hsum]; omega)
        have h : execute c db (.append key value) =
            .done (.integer (s ++ value).length) (db.set key (s ++ value)) := by
          simp only [execute, appendCommand, ho, hcheck, if_true]
        refine .of_within h (hdb.set (by rw [length_append]; exact hfit)) ?_
        simp only [Exceeds, strlen, ho]
        omega
      · have hcheck : checkStringLength c (toLongLong (s.length + value.length)) = false := by
          rw [← Bool.not_eq_true, checkStringLength_iff hc, hsum]
          omega
        exact .of_error hdb (by simp only [execute, appendCommand, ho, hcheck]; rfl)

theorem sdsgrowzero_of_le (hlen : len ≤ protoMaxBulkLen) :
    ∃ t, sdsgrowzero s len = some t ∧ t.length = max s.length len := by
  rw [sdsgrowzero]
  split_ifs with hle hfits
  · exact ⟨s, rfl, by omega⟩
  · exact ⟨_, rfl, by rw [length_append, length_replicate]; omega⟩
  · exact absurd (show _ ≤ ptrdiffMax by rw [protoMaxBulkLen] at hlen; rw [ptrdiffMax]; omega) hfits

theorem sdsnewlen_of_le (hlen : len ≤ protoMaxBulkLen) :
    sdsnewlen len = some (replicate len 0) :=
  if_pos (by rw [protoMaxBulkLen] at hlen; rw [ptrdiffMax]; omega)

/-- Within the limit the write of `SETRANGE` is done. -/
theorem setrangeWrite_eq {offset : Nat} (hdb : Within db) (key : Bytes)
    (hs : s.length ≤ protoMaxBulkLen) (hlen : offset + value.length ≤ protoMaxBulkLen) :
    ∃ reply db', setrangeWrite db key s offset value = .done reply db' ∧ Within db' := by
  obtain ⟨t, ht, htlen⟩ := sdsgrowzero_of_le (s := s) hlen
  refine ⟨_, _, by rw [setrangeWrite, ht], hdb.set ?_⟩
  rw [store_length (by omega)]
  omega

/-- `SETRANGE` refuses what is too long, as long as the sum is not taken for a negative one. -/
theorem setrangeAt_spec (hc : c.master = false) (hdb : Within db) (key : Bytes) {offset : Nat}
    (hsum : offset + value.length < 2 ^ 63) :
    ∃ reply db', setrangeAt c db key offset value = .done reply db' ∧ Within db' ∧
      (value ≠ [] → protoMaxBulkLen < offset + value.length → reply.isError = true ∧ db' = db) := by
  have hcheck : checkStringLength c (toLongLong (offset + value.length)) = true ↔
      offset + value.length ≤ protoMaxBulkLen := by
    rw [checkStringLength_iff hc, toLongLong_of_lt hsum]
    omega
  cases ho : db key with
  | none =>
    simp only [setrangeAt, ho]
    split_ifs with hnil hlen
    · exact ⟨_, _, rfl, hdb, fun hne => absurd hnil hne⟩
    · have hfits := hcheck.mp hlen
      obtain ⟨reply, db', hwrite, hdb'⟩ := setrangeWrite_eq hdb key
        (s := replicate (offset + value.length) 0) (by rwa [length_replicate]) hfits
      rw [sdsnewlen_of_le hfits]
      exact ⟨reply, db', hwrite, hdb', fun _ hlong => by omega⟩
    · exact ⟨_, _, rfl, hdb, fun _ _ => ⟨rfl, rfl⟩⟩
  | some o =>
    cases o with
    | other =>
      simp only [setrangeAt, ho]
      exact ⟨_, _, rfl, hdb, fun _ _ => ⟨rfl, rfl⟩⟩
    | str s =>
      simp only [setrangeAt, ho]
      split_ifs with hnil hlen
      · exact ⟨_, _, rfl, hdb, fun hne => absurd hnil hne⟩
      · have hfits := hcheck.mp hlen
        obtain ⟨reply, db', hwrite, hdb'⟩ := setrangeWrite_eq hdb key (hdb key s ho) hfits
        exact ⟨reply, db', hwrite, hdb', fun _ hlong => by omega⟩
      · exact ⟨_, _, rfl, hdb, fun _ _ => ⟨rfl, rfl⟩⟩

theorem setrange_respects (hc : c.master = false) (hdb : Within db) (key offset value : Bytes)
    (hfit : LengthsFit (.setrange key offset value)) : Respects c db (.setrange key offset value) := by
  cases hn : getLongFromObjectOrReply offset none with
  | error reply =>
    exact .of_error hdb (by simp only [execute, setrangeCommand, hn]; rfl)
  | ok n =>
    have hparse := getLongLong_ok hn
    have hsum := hfit n hparse
    by_cases hneg : n < 0
    · exact .of_error hdb (by simp only [execute, setrangeCommand, hn, hneg, if_true]; rfl)
    · have hword : n.toNat + value.length < 2 ^ 63 := by omega
      obtain ⟨reply, db', hdone, hdb', hrefuse⟩ := setrangeAt_spec hc hdb key hword
      refine ⟨reply, db', ?_, hdb', ?_⟩
      · simp only [execute, setrangeCommand, hn, hneg, if_false]
        exact hdone
      · rintro ⟨hne, m, hm, -, hlong⟩
        obtain rfl : n = m := some.inj (hparse.symm.trans hm)
        exact hrefuse hne (by omega)

/-- Room for a bit within the limit. -/
theorem lookupStringForBitCommand_spec (hdb : Within db) (key : Bytes) {maxbit : Nat}
    (hbit : maxbit < 8 * protoMaxBulkLen) :
    (∃ s, lookupStringForBitCommand db key maxbit = .ok s ∧ s.length ≤ protoMaxBulkLen) ∨
      lookupStringForBitCommand db key maxbit = .error (.done (.error wrongtypeerr) db) := by
  have hlen : maxbit / 8 + 1 ≤ protoMaxBulkLen := by omega
  cases ho : db key with
  | none =>
    simp only [lookupStringForBitCommand, ho, sdsnewlen_of_le hlen]
    exact .inl ⟨_, rfl, by rwa [length_replicate]⟩
  | some o =>
    cases o with
    | other => exact .inr (by simp only [lookupStringForBitCommand, ho])
    | str s =>
      obtain ⟨t, ht, htlen⟩ := sdsgrowzero_of_le (s := s) hlen
      simp only [lookupStringForBitCommand, ho, ht]
      have hs := hdb key s ho
      exact .inl ⟨t, rfl, by omega⟩

/-- The range check on the offset of a bit. -/
def checkedOffset (start : Int) : Except String Nat :=
  if start < 0 ∨ 8 * (protoMaxBulkLen : Int) ≤ start then .error bitOffsetErr else .ok start.toNat

theorem rangeCheck_eq (start : Int) :
    (if start < 0 ∨ start.toNat / 8 ≥ 512 * 1024 * 1024 then Except.error bitOffsetErr
      else .ok start.toNat) = checkedOffset start := by
  have hiff : (start < 0 ∨ start.toNat / 8 ≥ 512 * 1024 * 1024) ↔
      (start < 0 ∨ 8 * (protoMaxBulkLen : Int) ≤ start) := by
    simp only [protoMaxBulkLen]
    omega
  simp only [hiff]
  rfl

theorem getBitOffset_plain {n : Int} (hn : string2ll o = some n) :
    getBitOffsetFromArgument o false 0 = checkedOffset n := by
  rw [← rangeCheck_eq]
  simp [getBitOffsetFromArgument, hn]

/-- The product with the width is taken modulo `2 ^ 64`. -/
theorem getBitOffset_bmod (hbits : 0 < bits) (hexact : exactOffset o bits = some start) :
    getBitOffsetFromArgument o true bits = checkedOffset (start.bmod (2 ^ 64)) := by
  rw [← rangeCheck_eq]
  by_cases hhash : o.head? = some 35
  · rw [exactOffset, if_pos hhash] at hexact
    obtain ⟨n, hn, rfl⟩ := map_eq_some_iff.mp hexact
    simp only [getBitOffsetFromArgument, hbits, hhash, hn, decide_true, Bool.and_true, if_true]
  · rw [exactOffset, if_neg hhash] at hexact
    obtain ⟨-, hlo, hhi⟩ := string2ll_ll2string hexact
    rw [Int.bmod_eq_of_le (by omega) (by omega)]
    simp [getBitOffsetFromArgument, hhash, hexact]

/-- The offset of a field, if the product does not wrap around. -/
theorem getBitOffset_exact (hbits : 0 < bits)
    (hexact : exactOffset o bits = some start) (hlo : -2 ^ 63 ≤ start) (hhi : start < 2 ^ 63) :
    getBitOffsetFromArgument o true bits = checkedOffset start := by
  rw [getBitOffset_bmod hbits hexact, Int.bmod_eq_of_le (by omega) (by omega)]

/-- Offsets are exact unless the product wraps around into the range of offsets. -/
theorem bitfieldOffset_exact_iff {start : Int} (hbits : 0 < bits)
    (hexact : exactOffset o bits = some start) :
    (getBitOffsetFromArgument o true bits =
      if 0 ≤ start ∧ start < 2 ^ 32 then .ok start.toNat else .error bitOffsetErr) ↔
      (-2 ^ 63 ≤ start ∧ start < 2 ^ 63) ∨ 2 ^ 32 ≤ start % 2 ^ 64 := by
  have hlimit : 8 * (protoMaxBulkLen : Int) = 2 ^ 32 := rfl
  have hwrap : start.bmod (2 ^ 64) = start % 2 ^ 64 ∧ start % 2 ^ 64 < 2 ^ 63 ∨
      start.bmod (2 ^ 64) < 0 ∧ 2 ^ 63 ≤ start % 2 ^ 64 := by
    rw [Int.bmod_eq_emod]
    split <;> omega
  rw [getBitOffset_bmod hbits hexact, checkedOffset, hlimit]
  split_ifs
  · exact iff_of_false nofun (by omega)
  · exact iff_of_true rfl (by omega)
  · rw [Except.ok.injEq]
    omega
  · exact iff_of_false nofun (by omega)

theorem bitfieldOffset_exact_iff_seven :
    (getBitOffsetFromArgument [35, 55] true 8 =
      if (0 : Int) ≤ 56 ∧ (56 : Int) < 2 ^ 32 then .ok 56 else .error bitOffsetErr) ↔
      (-2 ^ 63 ≤ (56 : Int) ∧ (56 : Int) < 2 ^ 63) ∨ (2 ^ 32 : Int) ≤ 56 % 2 ^ 64 :=
  bitfieldOffset_exact_iff (by decide) rfl

/-- `#2305843009213693952` counts bytes from bit `2 ^ 64` on, but is taken for bit 0. -/
theorem bitfieldOffset_wraps :
    exactOffset (35 :: ll2string (2 ^ 61)) 8 = some (2 ^ 64) ∧
      getBitOffsetFromArgument (35 :: ll2string (2 ^ 61)) true 8 = .ok 0 :=
  ⟨rfl, rfl⟩

theorem getBitOffset_none (hbits : 0 < bits) (hnone : exactOffset o bits = none) :
    getBitOffsetFromArgument o true bits = .error bitOffsetErr := by
  by_cases hhash : o.head? = some 35
  · rw [exactOffset, if_pos hhash, map_eq_none_iff] at hnone
    simp [getBitOffsetFromArgument, hbits, hhash, hnone]
  · rw [exactOffset, if_neg hhash] at hnone
    simp [getBitOffsetFromArgument, hhash, hnone]

theorem setbit_respects (hdb : Within db) (key offset on : Bytes) :
    Respects c db (.setbit key offset on) := by
  cases hn : string2ll offset with
  | none =>
    have hoff : getBitOffsetFromArgument offset false 0 = .error bitOffsetErr := by
      simp [getBitOffsetFromArgument, hn]
    exact .of_error hdb (by simp only [execute, setbitCommand, hoff]; rfl)
  | some n =>
    have hoff := getBitOffset_plain hn
    rw [checkedOffset] at hoff
    split_ifs at hoff with hrange
    · exact .of_error hdb (by simp only [execute, setbitCommand, hoff]; rfl)
    · have hsmall : ¬ Exceeds db (.setbit key offset on) := by
        rintro ⟨m, hm, hlong⟩
        obtain rfl : n = m := some.inj (hn.symm.trans hm)
        omega
      cases hon : getLongFromObjectOrReply on (some bitErr) with
      | error reply =>
        exact .of_error hdb (by simp only [execute, setbitCommand, hoff, hon]; rfl)
      | ok v =>
        by_cases hbit : v ≠ 0 ∧ v ≠ 1
        · exact .of_error hdb
            (by simp only [execute, setbitCommand, hoff, hon]; rw [if_pos hbit])
        · have hn : n.toNat < 8 * protoMaxBulkLen := by omega
          rcases lookupStringForBitCommand_spec hdb key hn with ⟨s, hs, hlen⟩ | herror
          · refine .of_within (by
              simp only [execute, setbitCommand, hoff, hon, hs]; rw [if_neg hbit]) ?_ hsmall
            exact hdb.set (by rwa [setBit_length])
          · exact .of_error hdb
              (by simp only [execute, setbitCommand, hoff, hon, herror]; rw [if_neg hbit])

theorem bitfieldType_ok {sign : Bool} (h : getBitfieldTypeFromArgument type = .ok (sign, bits)) :
    0 < bits ∧ bits ≤ if sign then 64 else 63 := by
  rw [getBitfieldTypeFromArgument.eq_def] at h
  split at h
  · cases h
  · split_ifs at h
    split at h
    · cases h
    · split_ifs at h with hrange
      cases h
      refine ⟨by omega, ?_⟩
      split <;> simp_all

/-- What a field that parses gives. -/
structure FieldOf (opcode : Opcode) (type offset : Bytes) (thisop : BitfieldOp) : Prop where
  opcode_eq : thisop.opcode = opcode
  width : getBitfieldTypeFromArgument type = .ok (thisop.sign, thisop.bits)
  place : getBitOffsetFromArgument offset true thisop.bits = .ok thisop.offset

theorem parseField_ok (h : parseField opcode type offset value owtype = .ok thisop) :
    FieldOf opcode type offset thisop := by
  rw [parseField] at h
  split at h
  · cases h
  · next sign bits htype =>
      split at h
      · cases h
      · next bitoffset hoffset =>
          split_ifs at h with hget
          · cases h
            exact ⟨hget.symm, htype, hoffset⟩
          · split at h
            · cases h
            · cases h
              exact ⟨rfl, htype, hoffset⟩

/-- If everything parses, the operations are those of the fields. -/
theorem parseOps_ok {subs : List Subcommand} (h : parseOps subs owtype = .ok ops) :
    (∀ thisop ∈ ops, ∃ opcode type offset value, .field opcode type offset value ∈ subs ∧
      FieldOf opcode type offset thisop) ∧
    (∀ opcode type offset value, .field opcode type offset value ∈ subs →
      ∃ thisop, FieldOf opcode type offset thisop) := by
  induction subs generalizing owtype ops with
  | nil =>
    cases h
    exact ⟨by simp, by simp⟩
  | cons sub rest ih =>
    cases sub with
    | bad => cases h
    | overflow name =>
      rw [parseOps] at h
      split at h
      · cases h
      · obtain ⟨hops, hfields⟩ := ih h
        refine ⟨fun thisop hmem => ?_, fun opcode type offset value hmem => ?_⟩
        · obtain ⟨opcode, type, offset, value, hsub, hof⟩ := hops thisop hmem
          exact ⟨opcode, type, offset, value, mem_cons_of_mem _ hsub, hof⟩
        · rcases mem_cons.mp hmem with heq | hsub
          · cases heq
          · exact hfields opcode type offset value hsub
    | field opcode type offset value =>
      rw [parseOps] at h
      split at h
      · cases h
      · next thisop hfield =>
          split at h
          · cases h
          · next ops' hrest =>
              cases h
              obtain ⟨hops, hfields⟩ := ih hrest
              have hof := parseField_ok hfield
              refine ⟨fun op hmem => ?_, fun opcode' type' offset' value' hmem => ?_⟩
              · rcases mem_cons.mp hmem with rfl | hmem
                · exact ⟨opcode, type, offset, value, mem_cons_self, hof⟩
                · obtain ⟨opcode', type', offset', value', hsub, hof'⟩ := hops op hmem
                  exact ⟨opcode', type', offset', value', mem_cons_of_mem _ hsub, hof'⟩
              · rcases mem_cons.mp hmem with heq | hsub
                · cases heq
                  exact ⟨thisop, hof⟩
                · exact hfields opcode' type' offset' value' hsub

/-- The highest bit is below the bounds on the bits of the single operations. -/
theorem highestWriteOffset_lt : highestWriteOffset ops < bound ↔
    0 < bound ∧ ∀ thisop ∈ ops, thisop.opcode ≠ .get →
      thisop.offset + thisop.bits - 1 < bound := by
  have hloop : ∀ (l : List BitfieldOp) (high : Nat),
      l.foldl (fun high thisop => max high (thisop.offset + thisop.bits - 1)) high < bound ↔
        high < bound ∧ ∀ thisop ∈ l, thisop.offset + thisop.bits - 1 < bound := by
    intro l
    induction l with
    | nil => simp
    | cons thisop l ih =>
      intro high
      rw [foldl_cons, ih, Nat.max_lt, forall_mem_cons, and_assoc]
  rw [highestWriteOffset, hloop]
  simp

/-- A field of a write that was accepted ends within the limit. -/
theorem FieldOf.within {args : List Bytes} (hfit : LengthsFit (.bitfield key args))
    (hmem : .field opcode type offset value ∈ subcommands args.length args)
    (hof : FieldOf opcode type offset thisop) (hwrites : thisop.opcode ≠ .get) :
    thisop.offset + thisop.bits ≤ 8 * protoMaxBulkLen := by
  have hbits := (bitfieldType_ok hof.width).1
  have hplace := hof.place
  cases hexact : exactOffset offset thisop.bits with
  | none =>
    rw [getBitOffset_none hbits hexact] at hplace
    cases hplace
  | some start =>
    obtain ⟨hlo, hhi, hend⟩ := hfit start thisop.bits
      ⟨opcode, type, offset, value, thisop.sign, hmem, hof.opcode_eq ▸ hwrites, hof.width, hexact⟩
    rw [getBitOffset_exact hbits hexact hlo hhi, checkedOffset] at hplace
    split_ifs at hplace with hrange
    have hstart : start.toNat = thisop.offset := Except.ok.inj hplace
    omega

/-- If a field ends behind the limit the command does not parse. -/
theorem parseOps_of_exceeds {args : List Bytes} (hfit : LengthsFit (.bitfield key args))
    (hexceeds : Exceeds db (.bitfield key args)) (ops : List BitfieldOp) :
    parseOps (subcommands args.length args) .wrap ≠ .ok ops := by
  intro hparse
  obtain ⟨start, bits, hfield, hnonneg, hlong⟩ := hexceeds
  obtain ⟨hlo, hhi, hend⟩ := hfit start bits hfield
  obtain ⟨opcode, type, offset, value, sign, hmem, hwrites, hwidth, hplace⟩ := hfield
  obtain ⟨thisop, hof⟩ := (parseOps_ok hparse).2 opcode type offset value hmem
  have hsame : (thisop.sign, thisop.bits) = (sign, bits) :=
    Except.ok.inj (hof.width.symm.trans hwidth)
  have haccepted := hof.place
  rw [(Prod.mk.inj hsame).2, getBitOffset_exact (bitfieldType_ok hwidth).1 hplace hlo hhi,
    checkedOffset, if_pos (by omega)] at haccepted
  cases haccepted

theorem bitfield_respects (hdb : Within db) (key : Bytes) (args : List Bytes)
    (hfit : LengthsFit (.bitfield key args)) : Respects c db (.bitfield key args) := by
  cases hparse : parseOps (subcommands args.length args) .wrap with
  | error err =>
    exact .of_error hdb (by simp only [execute, bitfieldCommand, bitfieldGeneric, hparse]; rfl)
  | ok ops =>
    have hsmall : ¬ Exceeds db (.bitfield key args) := fun hexceeds =>
      parseOps_of_exceeds hfit hexceeds ops hparse
    by_cases hget : ∀ thisop ∈ ops, thisop.opcode = .get
    · -- without a write nothing is stored
      have hread : ∃ reply, execute c db (.bitfield key args) = .done reply db := by
        simp only [execute, bitfieldCommand, bitfieldGeneric, hparse]
        rw [if_pos hget]
        split <;> exact ⟨_, rfl⟩
      obtain ⟨reply, h⟩ := hread
      exact .of_within h hdb hsmall
    · have hhigh : highestWriteOffset ops < 8 * protoMaxBulkLen := by
        refine highestWriteOffset_lt.mpr ⟨by decide, fun thisop hmem hwrites => ?_⟩
        obtain ⟨opcode, type, offset, value, hsub, hof⟩ := (parseOps_ok hparse).1 thisop hmem
        have hend := hof.within hfit hsub hwrites
        have hbits := (bitfieldType_ok hof.width).1
        omega
      rcases lookupStringForBitCommand_spec hdb key hhigh with ⟨s, hs, hlen⟩ | herror
      · have h : execute c db (.bitfield key args) =
            .done (.array (runOps s ops).2) (db.set key (runOps s ops).1) := by
          simp only [execute, bitfieldCommand, bitfieldGeneric, hparse, hs]
          rw [if_neg hget]
          rfl
        exact .of_within h (hdb.set (by rwa [runOps_length])) hsmall
      · exact .of_error hdb (by
          simp only [execute, bitfieldCommand, bitfieldGeneric, hparse, herror]
          rw [if_neg hget]
          rfl)

theorem bitopSources_within (hdb : Within db) {keys : List Bytes}
    (h : bitopSources db keys = some src) : ∀ s ∈ src, s.length ≤ protoMaxBulkLen := by
  induction keys generalizing src with
  | nil =>
    cases h
    simp
  | cons key keys ih =>
    rw [bitopSources] at h
    split at h
    · cases h
    · next s hs =>
        obtain ⟨rest, hrest, rfl⟩ := map_eq_some_iff.mp h
        exact forall_mem_cons.mpr ⟨hdb key s hs, ih hrest⟩
    · obtain ⟨rest, hrest, rfl⟩ := map_eq_some_iff.mp h
      exact forall_mem_cons.mpr ⟨Nat.zero_le _, ih hrest⟩

theorem maxlen_le (h : ∀ s ∈ src, s.length ≤ bound) {start : Nat}
    (hstart : start ≤ bound) : src.foldl (fun m s => max m s.length) start ≤ bound := by
  induction src generalizing start with
  | nil => exact hstart
  | cons s src ih =>
    obtain ⟨hs, hsrc⟩ := forall_mem_cons.mp h
    exact ih hsrc (Nat.max_le.mpr ⟨hstart, hs⟩)

theorem bitop_respects (hdb : Within db) (opname target : Bytes) (keys : List Bytes) :
    Respects c db (.bitop opname target keys) := by
  cases hop : parseBitop opname with
  | none => exact .of_error hdb (by simp only [execute, bitopCommand, hop]; rfl)
  | some op =>
    by_cases hnot : op = .not ∧ keys.length ≠ 1
    · exact .of_error hdb (by simp only [execute, bitopCommand, hop]; rw [if_pos hnot])
    · cases hsrc : bitopSources db keys with
      | none =>
        exact .of_error hdb (by simp only [execute, bitopCommand, hop, hsrc]; rw [if_neg hnot])
      | some src =>
        have hmax := maxlen_le (bitopSources_within hdb hsrc) (Nat.zero_le _)
        have hsmall : ¬ Exceeds db (.bitop opname target keys) := by
          rintro ⟨src', hsrc', hlong⟩
          obtain rfl : src = src' := some.inj (hsrc.symm.trans hsrc')
          omega
        have hdone : ∃ reply db', execute c db (.bitop opname target keys) = .done reply db' ∧
            Within db' := by
          simp only [execute, bitopCommand, hop, hsrc]
          split_ifs
          · exact ⟨_, _, rfl, hdb.set (by rwa [length_map, length_range])⟩
          · exact ⟨_, _, rfl, hdb.update target (by simp)⟩
        obtain ⟨reply, db', h, hdb'⟩ := hdone
        exact .of_within h hdb' hsmall

/-- One command of a normal client. -/
theorem respects_of_fit (hc : c.master = false) (hdb : Within db) (hargs : cmd.FromClient)
    (hfit : LengthsFit cmd) : Respects c db cmd := by
  cases cmd with
  | append key value => exact append_respects hc hdb key value (hargs value (by simp [StringCommand.args]))
  | setrange key offset value => exact setrange_respects hc hdb key offset value hfit
  | setbit key offset on => exact setbit_respects hdb key offset on
  | bitfield key args => exact bitfield_respects hdb key args hfit
  | bitop opname target keys => exact bitop_respects hdb opname target keys

/-- In every run of commands whose lengths fit, every string stays within the limit and
every command that asks for more is refused and changes nothing. -/
theorem strings_within_limit (hc : c.master = false) (hdb : Within db) {cmds : List StringCommand}
    (hargs : ∀ cmd ∈ cmds, cmd.FromClient) (hfit : ∀ cmd ∈ cmds, LengthsFit cmd) :
    Simulation.RunOk (stringStep c) (fun s cmd => ∃ db, s = some db ∧ Within db ∧ Respects c db cmd)
        (some db) cmds ∧
      ∃ db', (Simulation.run (stringStep c) (some db) cmds).1 = some db' ∧ Within db' := by
  induction cmds generalizing db with
  | nil => exact ⟨trivial, db, rfl, hdb⟩
  | cons cmd cmds ih =>
    obtain ⟨hcmd, hargs⟩ := forall_mem_cons.mp hargs
    obtain ⟨hcmdfit, hfit⟩ := forall_mem_cons.mp hfit
    have hrespects := respects_of_fit hc hdb hcmd hcmdfit
    obtain ⟨reply, db', h, hdb', -⟩ := respects_of_fit hc hdb hcmd hcmdfit
    have hstep : (stringStep c (some db) cmd).1 = some db' := by simp only [stringStep, h]
    obtain ⟨hok, hlast⟩ := ih hdb' hargs hfit
    rw [← hstep] at hok hlast
    exact ⟨⟨⟨db, rfl, hdb, hrespects⟩, hok⟩, hlast⟩

/-- A write to a key that is missing makes a string that reaches to the highest bit. -/
theorem bitfield_creates (c : Client) (db : Db) (key : Bytes) {args : List Bytes}
    (hparse : parseOps (subcommands args.length args) .wrap = .ok ops)
    (hwrites : ¬ ∀ thisop ∈ ops, thisop.opcode = .get) (hkey : db key = none)
    (hroom : 17 + (highestWriteOffset ops / 8 + 1) + 1 ≤ ptrdiffMax) :
    ∃ vals s, execute c db (.bitfield key args) = .done (.array vals) (db.set key s) ∧
      s.length = highestWriteOffset ops / 8 + 1 := by
  have hlookup : lookupStringForBitCommand db key (highestWriteOffset ops) =
      .ok (replicate (highestWriteOffset ops / 8 + 1) 0) := by
    simp only [lookupStringForBitCommand, hkey, sdsnewlen]
    rw [if_pos hroom]
  simp only [execute, bitfieldCommand, bitfieldGeneric, hparse, hlookup]
  rw [if_neg hwrites]
  exact ⟨_, _, rfl, by rw [runOps_length, length_replicate]⟩

theorem within_empty : Within fun _ => none := by
  intro key s h
  cases h

/-- Two commands on the empty key space: `SETRANGE k 3 ab` and `BITFIELD k SET u8 #1 255`. -/
theorem strings_within_limit_two :
    ∃ db', (Simulation.run (stringStep ⟨false⟩) (some fun _ => none)
      [.setrange [107] [51] [97, 98],
        .bitfield [107] [[83, 69, 84], [117, 56], [35, 49], [50, 53, 53]]]).1 = some db' ∧
      Within db' := by
  refine (strings_within_limit rfl within_empty (fun cmd hcmd => ?_)
    (fun cmd hcmd => ?_)).2
  · rcases mem_pair.mp hcmd with rfl | rfl <;>
      simp [StringCommand.FromClient, StringCommand.args, protoMaxBulkLen]
  · rcases mem_pair.mp hcmd with rfl | rfl
    · intro n hn
      obtain rfl : 3 = n := Option.some.inj hn
      decide
    · rintro start bits ⟨opcode, type, offset, value, sign, hmem, hwrites, hwidth, hplace⟩
      cases mem_singleton.mp hmem
      cases hwidth
      cases hplace
      decide

/-- The arguments `SET i64 4294967295 0`: a field that starts at the last bit of the limit. -/
def fieldAtLimit : List Bytes :=
  [[83, 69, 84], [105, 54, 52], [52, 50, 57, 52, 57, 54, 55, 50, 57, 53], [48]]

/-- `BITFIELD` with that field makes a string that is eight bytes longer than the limit. -/
theorem bitfield_exceeds_limit :
    (StringCommand.bitfield [107] fieldAtLimit).FromClient ∧ Within (fun _ => none) ∧
      ∃ reply db' s,
        execute ⟨false⟩ (fun _ => none) (.bitfield [107] fieldAtLimit) = .done reply db' ∧
        reply.isError = false ∧ db' [107] = some (.str s) ∧ s.length = protoMaxBulkLen + 8 := by
  have hparse : parseOps (subcommands fieldAtLimit.length fieldAtLimit) .wrap =
      .ok [⟨4294967295, 0, .set, .wrap, 64, true⟩] := by decide
  have hhigh : highestWriteOffset [⟨4294967295, 0, .set, .wrap, 64, true⟩] = 4294967358 := by decide
  obtain ⟨vals, s, h, hlen⟩ := bitfield_creates ⟨false⟩ (fun _ => none) [107] hparse (by decide) rfl
    (by rw [hhigh]; decide)
  exact ⟨by simp [StringCommand.FromClient, StringCommand.args, fieldAtLimit, protoMaxBulkLen],
    within_empty, _, _, s, h, rfl, Dict.set_self .., hlen⟩

end Redis.Strings

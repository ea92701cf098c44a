import Redis.Ziplist.Basic

/-! The byte format of a ziplist as data. An entry is a width for its `prevlen`
field and a body, the encoding header with its payload; the field itself is
determined by the entry before it. A well-formed ziplist is the image of such a
list of entries. -/
namespace Redis.Ziplist

open ByteBuffer Util List

/-- One entry without the value of its `prevlen` field. -/
structure Entry where
  big : Bool
  body : Bytes
deriving DecidableEq, Repr

variable {prev : Nat} {e : Entry}

def Entry.prevSize (e : Entry) : Nat := if e.big then 5 else 1

def Entry.size (e : Entry) : Nat := e.prevSize + e.body.length

/-- The `prevlen` field, in the one-byte or the five-byte form. -/
def prevField (big : Bool) (prev : Nat) : Bytes :=
  if big then zipStorePrevEntryLengthLarge prev else [UInt8.ofNat prev]

/-- The bytes of an entry that follows one of `prev` bytes. -/
def Entry.bytes (e : Entry) (prev : Nat) : Bytes := prevField e.big prev ++ e.body

/-- The bytes of consecutive entries, the first of which follows an entry of
`prev` bytes. -/
def encodeFrom : Nat → List Entry → Bytes
  | _, [] => []
  | prev, e :: es => e.bytes prev ++ encodeFrom e.size es

def total (es : List Entry) : Nat := (es.map Entry.size).sum

/-- Size of the last entry, or of the one before when there is none. -/
def lastSize : Nat → List Entry → Nat
  | prev, [] => prev
  | _, e :: es => lastSize e.size es

/-- The header decodes, and accounts for every byte of the body. -/
def BodyOk (body : Bytes) : Prop :=
  (zipDecodeLength body).2.1 + (zipDecodeLength body).2.2 = body.length ∧
    (zipIsStr (zipDecodeLength body).1 ∨ (zipIntSize (zipDecodeLength body).1).isSome)

/-- A field that is wide enough for the entry before. -/
def Entry.Fits (e : Entry) (prev : Nat) : Prop := e.big = false → prev < zipBigPrevlen

/-- Entries whose bodies decode and whose one-byte `prevlen` fields suffice. -/
def ValidFrom : Nat → List Entry → Prop
  | _, [] => True
  | prev, e :: es => e.Fits prev ∧ BodyOk e.body ∧ ValidFrom e.size es

def header (bytes tail len : Nat) : Bytes := leBytes 4 bytes ++ leBytes 4 tail ++ leBytes 2 len

/-- The bytes before the last entry. -/
def backSize (es : List Entry) : Nat := total es.dropLast

/-- Offset of the last entry, or of the end marker of an empty list. -/
def tailOffset (es : List Entry) : Nat := ziplistHeaderSize + backSize es

/-- The whole ziplist with these entries and this value of `zllen`. -/
def layoutBytes (es : List Entry) (len : Nat) : Bytes :=
  header (total es + 11) (tailOffset es) len ++ encodeFrom 0 es ++ [255]

/-- The value an entry of this body holds. -/
def bodyValue (body : Bytes) : Value :=
  let (encoding, lensize, len) := zipDecodeLength body
  if zipIsStr encoding then .str ((body.drop lensize).take len)
  else .int (zipLoadInteger (body.drop lensize) encoding)

@[simp] theorem prevField_length (big : Bool) (prev : Nat) :
    (prevField big prev).length = if big then 5 else 1 := by
  cases big <;> simp [prevField, zipStorePrevEntryLengthLarge]

theorem Entry.prevSize_bounds (e : Entry) : 1 ≤ e.prevSize ∧ e.prevSize ≤ 5 := by
  rw [Entry.prevSize]
  split_ifs <;> omega

@[simp] theorem total_nil : total [] = 0 := rfl

@[simp] theorem total_cons (e : Entry) (es : List Entry) : total (e :: es) = e.size + total es := by
  simp [total]

@[simp] theorem total_append (es es' : List Entry) : total (es ++ es') = total es + total es' := by
  simp [total]

@[simp] theorem Entry.bytes_length (e : Entry) (prev : Nat) : (e.bytes prev).length = e.size := by
  simp [Entry.bytes, Entry.size, Entry.prevSize]

@[simp] theorem backSize_nil : backSize [] = 0 := rfl

@[simp] theorem backSize_singleton (e : Entry) : backSize [e] = 0 := rfl

@[simp] theorem backSize_cons_cons (e e' : Entry) (es : List Entry) :
    backSize (e :: e' :: es) = e.size + backSize (e' :: es) := by
  simp [backSize]

theorem backSize_le (es : List Entry) : backSize es ≤ total es := by
  induction es with
  | nil => exact le_refl _
  | cons e es ih =>
    cases es with
    | nil => simp
    | cons e' es =>
      rw [backSize_cons_cons, total_cons]
      omega

/-- Entries with the same body differ by the width of the first field. -/
theorem Entry.size_of_body {e e' : Entry} (h : e'.body = e.body) :
    (e'.size : Int) = e.size + ((e'.prevSize : Int) - e.prevSize) := by
  rw [Entry.size, Entry.size, h]
  omega

section

variable (prev : Nat)

@[simp] theorem encodeFrom_length (es : List Entry) : (encodeFrom prev es).length = total es := by
  induction es generalizing prev with
  | nil => rfl
  | cons e es ih =>
    simp [encodeFrom, ih]

variable (es es' : List Entry)

theorem encodeFrom_append :
    encodeFrom prev (es ++ es') = encodeFrom prev es ++ encodeFrom (lastSize prev es) es' := by
  induction es generalizing prev with
  | nil => rfl
  | cons e es ih => simp [encodeFrom, lastSize, ih, append_assoc]

theorem validFrom_append :
    ValidFrom prev (es ++ es') ↔ ValidFrom prev es ∧ ValidFrom (lastSize prev es) es' := by
  induction es generalizing prev with
  | nil => simp [ValidFrom, lastSize]
  | cons e es ih => simp [ValidFrom, lastSize, ih, and_assoc]

theorem lastSize_append : lastSize prev (es ++ es') = lastSize (lastSize prev es) es' := by
  induction es generalizing prev with
  | nil => rfl
  | cons e es ih => exact ih e.size

theorem lastSize_le (es : List Entry) : lastSize prev es ≤ prev + total es := by
  induction es generalizing prev with
  | nil => simp [lastSize]
  | cons e es ih =>
    have h := ih e.size
    rw [lastSize, total_cons]
    omega

end

@[simp] theorem header_length (a b c : Nat) : (header a b c).length = 10 := by
  simp [header]

section Header

variable (a b c v : Nat) (rest : Bytes)

theorem ziplistBytes_header (ha : a < 2 ^ 32) : ziplistBytes (header a b c ++ rest) = a := by
  exact readLE_leBytes_of_lt (by omega) _

theorem ziplistTailOffset_header_mod :
    ziplistTailOffset (header a b c ++ rest) = b % 2 ^ 32 := by
  have hdrop : (header a b c ++ rest).drop 4 = leBytes 4 b ++ (leBytes 2 c ++ rest) := by
    exact drop_left' (leBytes_length 4 a)
  exact readLE_leBytes 4 b _

theorem ziplistTailOffset_header (hb : b < 2 ^ 32) :
    ziplistTailOffset (header a b c ++ rest) = b := by
  rw [ziplistTailOffset_header_mod, Nat.mod_eq_of_lt hb]

theorem ziplistLength_header (hc : c < 2 ^ 16) : ziplistLength (header a b c ++ rest) = c := by
  have hdrop : (header a b c ++ rest).drop 8 = leBytes 2 c ++ rest := by
    rw [header, append_assoc]
    exact drop_left' (by simp)
  exact readLE_leBytes_of_lt (by omega) _

theorem setZiplistBytes_header :
    setZiplistBytes (header a b c ++ rest) v = header v b c ++ rest := by
  have h := store_append (a := []) (x := leBytes 4 a) (b := leBytes 4 b ++ leBytes 2 c ++ rest)
    (y := leBytes 4 v) (i := 0) rfl (by simp)
  simpa [setZiplistBytes, header] using h

theorem setZiplistTailOffset_header :
    setZiplistTailOffset (header a b c ++ rest) v = header a v c ++ rest := by
  have h := store_append (a := leBytes 4 a) (x := leBytes 4 b) (b := leBytes 2 c ++ rest)
    (y := leBytes 4 v) (i := 4) (by simp) (by simp)
  simpa [setZiplistTailOffset, header] using h

theorem setZiplistLength_header :
    setZiplistLength (header a b c ++ rest) v = header a b v ++ rest := by
  have h := store_append (a := leBytes 4 a ++ leBytes 4 b) (x := leBytes 2 c) (b := rest)
    (y := leBytes 2 v) (i := 8) (by simp) (by simp)
  simpa [setZiplistLength, header] using h

end Header

section Decoding

theorem byteAt_append_left {a b : Bytes} {i : Nat} (h : i < a.length) :
    byteAt (a ++ b) i = byteAt a i := by
  simp [byteAt, getD_eq_getElem?_getD, getElem?_append_left h]

theorem zipDecodeLength_lensize_pos (body : Bytes) : 0 < (zipDecodeLength body).2.1 := by
  simp only [zipDecodeLength]
  split_ifs <;> simp

/-- A body that is long enough for its header decodes alike whatever follows. -/
theorem zipDecodeLength_append {body rest : Bytes} (h : (zipDecodeLength body).2.1 ≤ body.length) :
    zipDecodeLength (body ++ rest) = zipDecodeLength body := by
  have hpos := zipDecodeLength_lensize_pos body
  have h0 : byteAt (body ++ rest) 0 = byteAt body 0 := byteAt_append_left (by omega)
  have henc : zipEntryEncoding (body ++ rest) = zipEntryEncoding body := by
    rw [zipEntryEncoding, zipEntryEncoding, h0]
  simp only [zipDecodeLength] at h ⊢
  rw [henc, h0]
  split_ifs at h ⊢ with hstr h6 h14
  · rfl
  · rw [byteAt_append_left h]
  · have h5 : 5 ≤ body.length := h
    rw [byteAt_append_left (show 1 < body.length by omega),
      byteAt_append_left (show 2 < body.length by omega),
      byteAt_append_left (show 3 < body.length by omega),
      byteAt_append_left (show 4 < body.length by omega)]
  · rfl

/-- The first byte of a `prevlen` field is never the end marker. -/
theorem prevField_head {big : Bool} (h : big = false → prev < zipBigPrevlen) (rest : Bytes) :
    byteAt (prevField big prev ++ rest) 0 ≠ zipEnd ∧
      zipDecodePrevlensize (prevField big prev ++ rest) = if big then 5 else 1 := by
  cases big with
  | true =>
    simp [prevField, zipStorePrevEntryLengthLarge, zipDecodePrevlensize, zipEnd, zipBigPrevlen]
  | false =>
    have hprev : prev < 254 := h rfl
    have hbyte : (UInt8.ofNat prev).toNat = prev := UInt8.toNat_ofNat_of_lt (by
      change prev < 256
      omega)
    simp only [prevField, zipDecodePrevlensize, zipEnd, zipBigPrevlen, cons_append,
      byteAt_cons_zero, hbyte, Bool.false_eq_true, if_false]
    simp [hprev]
    omega

theorem zipDecodePrevlen_prevField {big : Bool} (h : big = false → prev < zipBigPrevlen)
    (hlt : prev < 2 ^ 32) (rest : Bytes) :
    zipDecodePrevlen (prevField big prev ++ rest) = prev := by
  rw [zipDecodePrevlen, (prevField_head h rest).2]
  cases big with
  | true =>
    exact readLE_leBytes_of_lt (by omega) _
  | false =>
    have hprev : prev < 254 := h rfl
    exact UInt8.toNat_ofNat_of_lt (by change prev < 256; omega)

variable (h : e.Fits prev)
include h

theorem Entry.head_ne_end (rest : Bytes) : byteAt (e.bytes prev ++ rest) 0 ≠ zipEnd := by
  rw [Entry.bytes, append_assoc]
  exact (prevField_head h _).1

theorem Entry.decodePrevlensize (rest : Bytes) :
    zipDecodePrevlensize (e.bytes prev ++ rest) = e.prevSize := by
  rw [Entry.bytes, append_assoc]
  exact (prevField_head h _).2

theorem Entry.decodePrevlen (hlt : prev < 2 ^ 32) (rest : Bytes) :
    zipDecodePrevlen (e.bytes prev ++ rest) = prev := by
  rw [Entry.bytes, append_assoc]
  exact zipDecodePrevlen_prevField h hlt _

omit h in
theorem Entry.drop_prevSize (e : Entry) (prev : Nat) (rest : Bytes) :
    (e.bytes prev ++ rest).drop e.prevSize = e.body ++ rest := by
  rw [Entry.bytes, append_assoc]
  exact drop_left' (prevField_length e.big prev)

omit h in
theorem Entry.decodeLength (hbody : BodyOk e.body) (rest : Bytes) :
    zipDecodeLength ((e.bytes prev ++ rest).drop e.prevSize) = zipDecodeLength e.body := by
  have hlen := hbody.1
  rw [Entry.drop_prevSize, zipDecodeLength_append (by omega)]

/-- Everything the code reads at an entry. -/
theorem Entry.zipEntry_eq (hlt : prev < 2 ^ 32) (hbody : BodyOk e.body) (rest : Bytes) :
    zipEntry (e.bytes prev ++ rest) =
      { prevrawlensize := e.prevSize
        prevrawlen := prev
        lensize := (zipDecodeLength e.body).2.1
        len := (zipDecodeLength e.body).2.2
        headersize := e.prevSize + (zipDecodeLength e.body).2.1
        encoding := (zipDecodeLength e.body).1 } := by
  rw [zipEntry, Entry.decodePrevlensize h, Entry.decodeLength hbody, Entry.decodePrevlen h hlt]

omit h in
/-- The code's sum of header and data is the size of the entry. -/
theorem Entry.size_eq (hbody : BodyOk e.body) :
    e.prevSize + (zipDecodeLength e.body).2.1 + (zipDecodeLength e.body).2.2 = e.size := by
  rw [Entry.size, add_assoc, hbody.1]

theorem Entry.zipRawEntryLength_eq (hbody : BodyOk e.body) (rest : Bytes) :
    zipRawEntryLength (e.bytes prev ++ rest) = e.size := by
  rw [zipRawEntryLength, Entry.decodePrevlensize h, Entry.decodeLength hbody]
  exact Entry.size_eq hbody

end Decoding

section Reading

/-! What the code reads in a well-formed ziplist at the position between two
parts of its entries. -/

variable {pre post rest : List Entry} {e : Entry} {c : Nat}

/-- The bytes from an entry on, in a ziplist written as its parts. -/
theorem drop_part {h a b r : Bytes} {p : Nat} (hp : p = h.length + a.length) :
    (h ++ (a ++ b) ++ r).drop p = b ++ r := by
  rw [hp, ← length_append, ← append_assoc h a b, append_assoc (h ++ a),
    drop_left]

theorem backSize_append (es : List Entry) (e : Entry) (es' : List Entry) :
    backSize (es ++ e :: es') = total es + backSize (e :: es') := by
  rw [backSize, dropLast_append_of_ne_nil (by simp), total_append, backSize]

theorem tailOffset_concat (front : List Entry) (last : Entry) :
    tailOffset (front ++ [last]) = 10 + total front := by
  rw [tailOffset, backSize_append, backSize_singleton, ziplistHeaderSize, add_zero]

theorem layoutBytes_append (pre post : List Entry) (c : Nat) :
    layoutBytes (pre ++ post) c =
      header (total (pre ++ post) + 11) (tailOffset (pre ++ post)) c ++
        (encodeFrom 0 pre ++ encodeFrom (lastSize 0 pre) post) ++ [255] := by
  rw [layoutBytes, encodeFrom_append]

/-- The bytes from an entry on. -/
theorem layoutBytes_drop {pre post : List Entry} {c p : Nat} (hp : p = 10 + total pre) :
    (layoutBytes (pre ++ post) c).drop p = encodeFrom (lastSize 0 pre) post ++ [255] := by
  rw [layoutBytes_append, drop_part (by simp [hp])]

theorem layout_end (pre : List Entry) (c : Nat) :
    byteAt (layoutBytes (pre ++ []) c) (10 + total pre) = zipEnd := by
  rw [← add_zero (10 + total pre), ← byteAt_drop, layoutBytes_drop rfl]
  rfl

theorem lastSize_lt (hsize : total (pre ++ post) + 11 < 2 ^ 32) : lastSize 0 pre < 2 ^ 32 := by
  have hlast := lastSize_le 0 pre
  rw [total_append] at hsize
  omega

section

variable (hvalid : ValidFrom 0 (pre ++ e :: rest))
include hvalid

theorem layout_at (c : Nat) : ∃ behind, (layoutBytes (pre ++ e :: rest) c).drop (10 + total pre) =
    e.bytes (lastSize 0 pre) ++ behind ∧ e.Fits (lastSize 0 pre) ∧ BodyOk e.body := by
  obtain ⟨-, hfits, hbody, -⟩ := (validFrom_append 0 pre (e :: rest)).mp hvalid
  exact ⟨_, by rw [layoutBytes_drop rfl, encodeFrom, append_assoc], hfits, hbody⟩

theorem layout_entry : byteAt (layoutBytes (pre ++ e :: rest) c) (10 + total pre) ≠ zipEnd := by
  obtain ⟨behind, hat, hfits, -⟩ := layout_at hvalid c
  rw [← add_zero (10 + total pre), ← byteAt_drop, hat]
  exact Entry.head_ne_end hfits _

theorem layout_prevlen (hsize : total (pre ++ e :: rest) + 11 < 2 ^ 32) :
    zipDecodePrevlen ((layoutBytes (pre ++ e :: rest) c).drop (10 + total pre)) =
      lastSize 0 pre := by
  obtain ⟨behind, hat, hfits, -⟩ := layout_at hvalid c
  rw [hat]
  exact Entry.decodePrevlen hfits (lastSize_lt hsize) _

theorem layout_rawlen :
    zipRawEntryLength ((layoutBytes (pre ++ e :: rest) c).drop (10 + total pre)) = e.size := by
  obtain ⟨behind, hat, hfits, hbody⟩ := layout_at hvalid c
  rw [hat]
  exact Entry.zipRawEntryLength_eq hfits hbody _

end

theorem layout_bytes {es : List Entry} (hsize : total es + 11 < 2 ^ 32) :
    ziplistBytes (layoutBytes es c) = total es + 11 := by
  rw [layoutBytes, append_assoc, ziplistBytes_header _ _ _ _ hsize]

theorem layout_tail {es : List Entry} (hsize : total es + 11 < 2 ^ 32) :
    ziplistTailOffset (layoutBytes es c) = tailOffset es := by
  have hle := backSize_le es
  rw [layoutBytes, append_assoc, ziplistTailOffset_header]
  rw [tailOffset, ziplistHeaderSize]
  omega

end Reading

end Redis.Ziplist

import Redis.Util

/-! What the commands of all types share: the dictionary of the keyspace, the integers among the
arguments, and the texts of common errors. -/
namespace Redis.Shared

open ByteBuffer Util

variable {α : Type} {key other : Bytes}

/-- The values of a database, as the commands of one type see it when no key expires. The commands
on whole keys, for which the expire times matter, are in `Redis.Keyspace`. -/
abbrev Dict (α : Type) : Type := Bytes → Option α

namespace Dict

/-- `dbAdd` of a new key, `dbOverwrite` of an old one, or a write to the object itself. -/
def set (db : Dict α) (key : Bytes) (val : α) : Dict α := Function.update db key (some val)

/-- `dbDelete`, whether the key is there or not. -/
def delete (db : Dict α) (key : Bytes) : Dict α := Function.update db key none

@[simp] theorem set_self (db : Dict α) (key : Bytes) (val : α) : db.set key val key = some val :=
  Function.update_self ..

@[simp] theorem delete_self (db : Dict α) (key : Bytes) : db.delete key key = none :=
  Function.update_self ..

theorem set_of_ne (h : other ≠ key) (db : Dict α) (val : α) : db.set key val other = db other :=
  Function.update_of_ne h ..

theorem delete_of_ne (h : other ≠ key) (db : Dict α) : db.delete key other = db other :=
  Function.update_of_ne h ..

/-- Only the last write to a key counts. -/
theorem set_delete (db : Dict α) (key : Bytes) (val : α) :
    (db.delete key).set key val = db.set key val :=
  Function.update_idem ..

end Dict

section Errors

/-- The text of an error reply. -/
def addReplyError (err : String) : String := "ERR " ++ err

def syntaxerr : String := "ERR syntax error"

def wrongtypeerr : String := "WRONGTYPE Operation against a key holding the wrong kind of value"

def nokeyerr : String := "ERR no such key"

def sameobjecterr : String := "ERR source and destination objects are the same"

def outofrangeerr : String := "ERR index out of range"

end Errors

section Arguments

def getLongLongFromObjectOrReply (o : Bytes) (msg : Option String) : Except String Int :=
  match string2ll o with
  | some value => .ok value
  | none => .error (addReplyError (msg.getD "value is not an integer or out of range"))

theorem getLongLong_ok {o : Bytes} {msg : Option String} {n : Int}
    (h : getLongLongFromObjectOrReply o msg = .ok n) : string2ll o = some n := by
  rw [getLongLongFromObjectOrReply] at h
  split at h
  · cases h
    assumption
  · cases h

/-- A `long` is as wide as a `long long`, so the second check of the source never fails. -/
def getLongFromObjectOrReply (o : Bytes) (msg : Option String) : Except String Int :=
  getLongLongFromObjectOrReply o msg

end Arguments

end Redis.Shared

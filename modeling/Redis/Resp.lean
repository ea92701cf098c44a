import Redis.Util

/-! Commands in the request format of the protocol, as `catAppendOnlyGenericCommand`
of `aof.c` writes them for the append only file and for replicas. -/
namespace Redis.Resp

open ByteBuffer Util List

def crlf : Bytes := [13, 10]

/-- A line with a count: `*` for the arguments of a command, `$` for the bytes of one. -/
def countLine (kind : UInt8) (n : Nat) : Bytes := kind :: ll2string n ++ crlf

def bulk (arg : Bytes) : Bytes := countLine 36 arg.length ++ arg ++ crlf

def bulks (args : List Bytes) : Bytes := args.flatMap bulk

def catAppendOnlyGenericCommand (argv : List Bytes) : Bytes :=
  countLine 42 argv.length ++ bulks argv

/-- Commands one after the other. -/
def encodeAll (cmds : List (List Bytes)) : Bytes := cmds.flatMap catAppendOnlyGenericCommand

@[simp] theorem bulks_nil : bulks [] = [] := rfl

@[simp] theorem bulks_cons (a : Bytes) (args : List Bytes) : bulks (a :: args) = bulk a ++ bulks args :=
  flatMap_cons

@[simp] theorem encodeAll_nil : encodeAll [] = [] := rfl

@[simp] theorem encodeAll_cons (cmd : List Bytes) (cmds : List (List Bytes)) :
    encodeAll (cmd :: cmds) = catAppendOnlyGenericCommand cmd ++ encodeAll cmds :=
  flatMap_cons

@[simp] theorem encodeAll_append (l m : List (List Bytes)) :
    encodeAll (l ++ m) = encodeAll l ++ encodeAll m := flatMap_append

theorem digits_of_count {n : Nat} (h : n < 2 ^ 63) : ll2string n = decimal n :=
  ll2string_nonneg (lt_trans h (by norm_num))

/-- A count is made of digits. -/
theorem isDigit_count {n : Nat} (h : n < 2 ^ 63) {b : UInt8} (hb : b ∈ ll2string n) : isDigit b := by
  rw [digits_of_count h] at hb
  exact isDigit_of_mem_decimal hb

end Redis.Resp

import Mathlib.Data.List.Basic

/-! Names of the same length and hash, for metadata dumps that do not give away the real names. -/
namespace Xfs

abbrev NameByte := BitVec 8

def rol32 (x : BitVec 32) (y : Nat) : BitVec 32 := (x <<< y) ||| (x >>> (32 - y))

def daHashnameFrom (hash : BitVec 32) : List NameByte → BitVec 32
  | a :: b :: c :: d :: name =>
    daHashnameFrom ((a.setWidth 32 <<< 21) ^^^ (b.setWidth 32 <<< 14) ^^^
      (c.setWidth 32 <<< 7) ^^^ (d.setWidth 32 <<< 0) ^^^ rol32 hash (7 * 4)) name
  | [a, b, c] =>
    (a.setWidth 32 <<< 14) ^^^ (b.setWidth 32 <<< 7) ^^^ (c.setWidth 32 <<< 0) ^^^
      rol32 hash (7 * 3)
  | [a, b] => (a.setWidth 32 <<< 7) ^^^ (b.setWidth 32 <<< 0) ^^^ rol32 hash (7 * 2)
  | [a] => (a.setWidth 32 <<< 0) ^^^ rol32 hash (7 * 1)
  | [] => hash

def daHashname (name : List NameByte) : BitVec 32 := daHashnameFrom 0 name

def asciiCiNeedXfrm (c : NameByte) : Bool :=
  (0x41#8 ≤ c && c ≤ 0x5a#8) || (0xc0#8 ≤ c && c ≤ 0xd6#8) || (0xd8#8 ≤ c && c ≤ 0xde#8)

def asciiCiXfrm (c : NameByte) : NameByte := if asciiCiNeedXfrm c then c + 0x20#8 else c

def asciiCiHashname (name : List NameByte) : BitVec 32 :=
  name.foldl (fun hash c => (asciiCiXfrm c).setWidth 32 ^^^ rol32 hash 7) 0

def nameHash (isCiName : Bool) (name : List NameByte) : BitVec 32 :=
  if isCiName then asciiCiHashname name else daHashname name

/-- A slash or the end of a string. -/
def isInvalidChar (c : NameByte) : Bool := c == 0x2f#8 || c == 0#8

def filenameAlphabet : List NameByte :=
  "ABCDEFGHIJKLMNOPQRSTUVWXYZabcdefghijklmnopqrstuvwxyz0123456789-_".toList.map
    fun c => BitVec.ofNat 8 c.toNat

def randomFilenameChar (r : Nat) : NameByte :=
  filenameAlphabet.getD (r % filenameAlphabet.length) 0

/-- `count` random characters and their hash. `next` is the number of the next call. -/
def fillPrefix (random : Nat → Nat) (isCiName : Bool) :
    Nat → Nat → BitVec 32 → List NameByte × BitVec 32
  | 0, _, hash => ([], hash)
  | count + 1, next, hash =>
    let c := randomFilenameChar (random next)
    let hash :=
      if isCiName then (asciiCiXfrm c).setWidth 32 ^^^ rol32 hash 7
      else c.setWidth 32 ^^^ rol32 hash 7
    let (cs, hash) := fillPrefix random isCiName count (next + 1) hash
    (c :: cs, hash)

/-- The last `count` bytes, which the hash determines, and the bit to flip behind them. -/
def solveTail (newHash : BitVec 32) (isCiName : Bool) :
    Nat → NameByte → Option (List NameByte × NameByte)
  | 0, highBit => some ([], highBit)
  | count + 1, highBit =>
    let c := ((newHash >>> (7 * count)) &&& 0x7f#32).setWidth 8 ^^^ highBit
    let (c, highBit) := if isInvalidChar c then (c ^^^ 1#8, 0x80#8) else (c, 0#8)
    if isCiName && asciiCiNeedXfrm c then none
    else
      match solveTail newHash isCiName count highBit with
      | none => none
      | some (cs, highBit) => some (c :: cs, highBit)

def obfuscateTry (random : Nat → Nat) (hash : BitVec 32) (nameLen : Nat) (isCiName : Bool)
    (next : Nat) : Option (List NameByte) :=
  let (start, newHash) := fillPrefix random isCiName (nameLen - 5) next 0
  match solveTail (rol32 newHash 3 ^^^ hash) isCiName 5 0 with
  | none => none
  | some ([], _) => none
  | some (first :: rest, highBit) =>
    if highBit ≠ 0 then
      -- the bit that matches in the first byte
      let first := first ^^^ 0x10#8
      if isCiName && asciiCiNeedXfrm first then none else some (start ++ first :: rest)
    else some (start ++ first :: rest)

/-- Try again up to `tries` times. Only the ascii-ci mode keeps the old name. -/
def obfuscateLoop (random : Nat → Nat) (hash : BitVec 32) (nameLen : Nat) (isCiName : Bool)
    (oldname : Option (List NameByte)) : Nat → Nat → Option (List NameByte)
  | 0, _ => oldname
  | tries + 1, next =>
    match obfuscateTry random hash nameLen isCiName next with
    | some name => some name
    | none => obfuscateLoop random hash nameLen isCiName oldname tries (next + (nameLen - 5))

/-- Another name with the same hash. Names with less than five characters stay. -/
def obfuscateName (random : Nat → Nat) (hash : BitVec 32) (name : List NameByte)
    (isDirent hasAsciici : Bool) : Option (List NameByte) :=
  let isCiName := isDirent && hasAsciici
  if name.length < 5 then some name
  else obfuscateLoop random hash name.length isCiName (if isCiName then some name else none) 1001 0

/-- Pairs of a byte and a bit in it that show in the same bit of the hash. -/
def bitToFlip : List ((Nat × Nat) × (Nat × Nat)) :=
  [((0, 0), (1, 7)), ((1, 0), (2, 7)), ((2, 0), (3, 7)), ((0, 4), (4, 0)), ((0, 5), (4, 1)),
    ((0, 6), (4, 2)), ((0, 7), (4, 3)), ((3, 0), (4, 7)), ((0, 0), (5, 3)), ((0, 1), (5, 4)),
    ((0, 2), (5, 5)), ((0, 3), (5, 6)), ((0, 4), (5, 7)), ((4, 0), (5, 7))]

/-- Flip the bits of one pair at the end of a name of two characters or more. -/
def flipBit (name : List NameByte) (bitseq : Nat) : List NameByte × Int :=
  -- the last usable entry
  let index := (bitToFlip.takeWhile fun row => decide (row.2.1 < name.length)).length - 1
  if index < bitseq then (name, -1)
  else
    let offset := name.length - ((bitToFlip.getD index ((0, 0), (0, 0))).2.1 + 1)
    let row := bitToFlip.getD (index - bitseq) ((0, 0), (0, 0))
    let p0 := offset + row.1.1
    let p1 := offset + row.2.1
    let c0 := name.getD p0 0 ^^^ (1#8 <<< row.1.2)
    let c1 := name.getD p1 0 ^^^ (1#8 <<< row.2.2)
    if isInvalidChar c0 || isInvalidChar c1 then (name, 0) else ((name.set p0 c0).set p1 c1, 1)

def findAlternateLoop : Nat → Nat → BitVec 32 → List NameByte → List NameByte × Int
  | 0, _, _, name => (name, 1)
  | count + 1, bitseq, bits, name =>
    if bits = 0 then (name, 1)
    else
      let mask := 1#32 <<< bitseq
      if bits &&& mask = 0 then findAlternateLoop count (bitseq + 1) bits name
      else
        match flipBit name bitseq with
        | (name, fb) =>
          if fb < 1 then (name, if fb ≠ 0 then -1 else 0)
          else findAlternateLoop count (bitseq + 1) (bits ^^^ mask) name

def findAlternate (name : List NameByte) (seq : BitVec 32) : List NameByte × Int :=
  if seq = 0 then (name, 1)
  else if name.length < 2 then (name, -1)
  else findAlternateLoop 32 0 seq name

end Xfs

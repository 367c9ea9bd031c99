import Mathlib.Logic.Function.Basic
import Xfs.Db.Obfuscate

/-! How a metadata dump renames directory entries and the parent pointers that belong to them. -/
namespace Xfs

/-- A name seen in the inode at hand. -/
structure NameEnt where
  hash : BitVec 32
  name : List NameByte
deriving DecidableEq, Repr

/-- What a name of a directory has become. -/
structure RemapEnt where
  dirIno : Nat
  namehash : BitVec 32
  before : List NameByte
  after : List NameByte
deriving DecidableEq, Repr

/-- `random` has the values that `random` returns in each call of `obfuscate_name`. -/
structure DumpMount where
  rootino : Nat
  hasParent : Bool
  hasAsciici : Bool
  random : Nat → Nat → Nat

/-- The two tables, "lost+found", the calls of `obfuscate_name`, and whether it warned. -/
structure DumpState where
  nametable : Nat → List NameEnt
  remaptable : Nat → List RemapEnt
  orphanageIno : Nat
  calls : Nat
  warned : Bool

def nametableSize : Nat := 4096

def nametableFind (st : DumpState) (hash : BitVec 32) (name : List NameByte) : Bool :=
  (st.nametable (hash.toNat % nametableSize)).any fun ent => ent.hash == hash && ent.name == name

def nametableAdd (st : DumpState) (hash : BitVec 32) (name : List NameByte) : DumpState :=
  let bucket := hash.toNat % nametableSize
  let ents := ⟨hash, name⟩ :: st.nametable bucket
  { st with nametable := Function.update st.nametable bucket ents }

def remaptableSize : Nat := 4096

def remaptableFind (st : DumpState) (dirIno : Nat) (namehash : BitVec 32) (name : List NameByte) :
    Option RemapEnt :=
  (st.remaptable (namehash.toNat % remaptableSize)).find? fun ent =>
    ent.dirIno == dirIno && ent.namehash == namehash && ent.before == name

def remaptableAdd (st : DumpState) (dirIno : Nat) (namehash : BitVec 32)
    (oldName newName : List NameByte) : DumpState :=
  let bucket := namehash.toNat % remaptableSize
  let ents := ⟨dirIno, namehash, oldName, newName⟩ :: st.remaptable bucket
  { st with remaptable := Function.update st.remaptable bucket ents }

def nameBytes (s : String) : List NameByte := s.toList.map fun c => BitVec.ofNat 8 c.toNat

def isOrphanageDir (mp : DumpMount) (dirIno : Nat) (name : List NameByte) : Bool :=
  dirIno == mp.rootino && name == nameBytes "lost+found"

def inLostFound (mp : DumpMount) (st : DumpState) (curIno ino : Nat) (name : List NameByte) :
    DumpState × Bool :=
  let st :=
    if st.orphanageIno = 0 ∧ isOrphanageDir mp curIno name = true then
      { st with orphanageIno := ino }
    else st
  if ino = st.orphanageIno then (st, true)
  else if curIno ≠ st.orphanageIno then (st, false)
  else (st, name == nameBytes (Nat.repr ino))

/-- The search for an alternate that has not been seen, from `seq` on. -/
def findUnusedAlternate (st : DumpState) (hash : BitVec 32) (name : List NameByte) :
    Nat → Nat → Option (List NameByte)
  | 0, _ => none
  | count + 1, seq =>
    match findAlternate name (BitVec.ofNat 32 seq) with
    | (newName, found) =>
      if found < 0 then none
      else if found = 0 then findUnusedAlternate st hash name count (seq + 1)
      else if nametableFind st hash newName then
        findUnusedAlternate st hash name count (seq + 1)
      else some newName

/-- A name not in the table yet. There are no alternates from 16384 on. -/
def handleDuplicateName (st : DumpState) (hash : BitVec 32) (name : List NameByte) :
    Option (List NameByte) :=
  if nametableFind st hash name then findUnusedAlternate st hash name 16384 1 else some name

def dirattrHashname (mp : DumpMount) (isDirent : Bool) (name : List NameByte) : BitVec 32 :=
  nameHash (isDirent && mp.hasAsciici) name

def obfuscateNext (mp : DumpMount) (st : DumpState) (hash : BitVec 32) (name : List NameByte)
    (isDirent : Bool) : DumpState × List NameByte :=
  ({ st with calls := st.calls + 1 },
    (obfuscateName (mp.random st.calls) hash name isDirent mp.hasAsciici).getD name)

def generateObfuscatedNameTail (mp : DumpMount) (st : DumpState) (curIno ino : Nat)
    (name : List NameByte) : DumpState × List NameByte :=
  let hash := dirattrHashname mp (ino != 0) name
  let pptrs := mp.hasParent && ino != 0
  -- use the name of the parent pointer if that came first
  match if pptrs then remaptableFind st curIno hash name else none with
  | some remap => (st, remap.after)
  | none =>
    let (st, newName) := obfuscateNext mp st hash name (ino != 0)
    match handleDuplicateName st hash newName with
    | none => ({ st with warned := true }, newName)
    | some newName =>
      let st := nametableAdd st hash newName
      (if pptrs then remaptableAdd st curIno hash name newName else st, newName)

/-- A slash in front is not part of the name. -/
def generateObfuscatedName (mp : DumpMount) (st : DumpState) (curIno ino : Nat)
    (name : List NameByte) : DumpState × List NameByte :=
  match if ino ≠ 0 then inLostFound mp st curIno ino name else (st, false) with
  | (st, true) => (st, name)
  | (st, false) =>
    match name with
    | [] => generateObfuscatedNameTail mp st curIno ino []
    | c :: cs =>
      if c = 0x2f#8 then
        let (st, new) := generateObfuscatedNameTail mp st curIno ino cs
        (st, c :: new)
      else generateObfuscatedNameTail mp st curIno ino (c :: cs)

/-- Rename a parent pointer of `curIno`. Without `parentIno` the attribute is none. -/
def maybeObfuscatePptr (mp : DumpMount) (st : DumpState) (obfuscate isMeta : Bool) (curIno : Nat)
    (parentIno : Option Nat) (name : List NameByte) : DumpState × List NameByte :=
  if obfuscate = false ∨ isMeta = true then (st, name)
  else
    match parentIno with
    | none => (st, name)
    | some parentIno =>
      match inLostFound mp st parentIno curIno name with
      | (st, true) => (st, name)
      | (st, false) =>
        let hash := dirattrHashname mp true name
        match remaptableFind st parentIno hash name with
        | some remap => (st, remap.after)
        | none =>
          let (st, newName) := obfuscateNext mp st hash name true
          (remaptableAdd st parentIno hash name newName, newName)

end Xfs

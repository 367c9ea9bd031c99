import Mathlib.Data.List.TakeWhile
import Mathlib.Tactic.IntervalCases
import Xfs.Db.Obfuscate
import Xfs.Lib.RotateHash

/-! Obfuscated names and alternates keep the length and the hash of a name and are valid. -/
namespace Xfs

open List RotateHash

/-- No slash and no end of string. -/
def ValidName (name : List NameByte) : Prop := ∀ c ∈ name, isInvalidChar c = false

instance (name : List NameByte) : Decidable (ValidName name) :=
  inferInstanceAs (Decidable (∀ c ∈ name, _))

theorem rol32_eq {x : BitVec 32} {y : Nat} (hy : y < 32) : rol32 x y = x.rotateLeft y := by
  rw [BitVec.rotateLeft_def, Nat.mod_eq_of_lt hy, rol32]

variable {c : NameByte} {n : Nat}

theorem byte_shiftLeft (hn : n ≤ 24) : c.setWidth 32 <<< n = (c.setWidth 32).rotateLeft n := by
  refine BitVec.eq_of_getLsbD_eq fun i hi => ?_
  rw [BitVec.getLsbD_rotateLeft_of_le (by omega), BitVec.getLsbD_shiftLeft, decide_eq_true hi]
  by_cases hlt : i < n
  · have hbig : c.getLsbD (32 - n + i) = false := BitVec.getLsbD_of_ge _ _ (by omega)
    simp [hlt, hbig]
  · simp [hlt]

/-- What a character adds to the hash. -/
def hashChar (isCiName : Bool) (c : NameByte) : BitVec 32 :=
  (if isCiName then asciiCiXfrm c else c).setWidth 32

theorem daHashnameFrom_eq (hash : BitVec 32) (name : List NameByte) :
    daHashnameFrom hash name = rotHash 7 hash (name.map (hashChar false)) := by
  have hshift : ∀ c : NameByte, c.setWidth 32 <<< 21 = (hashChar false c).rotateLeft 21 ∧
      c.setWidth 32 <<< 14 = (hashChar false c).rotateLeft 14 ∧
      c.setWidth 32 <<< 7 = (hashChar false c).rotateLeft 7 ∧
      c.setWidth 32 <<< 0 = hashChar false c := fun c =>
    ⟨byte_shiftLeft (by decide), byte_shiftLeft (by decide), byte_shiftLeft (by decide),
      BitVec.shiftLeft_zero _⟩
  have hrol : ∀ x : BitVec 32, rol32 x (7 * 4) = x.rotateLeft 28 ∧
      rol32 x (7 * 3) = x.rotateLeft 21 ∧ rol32 x (7 * 2) = x.rotateLeft 14 ∧
      rol32 x (7 * 1) = x.rotateLeft 7 := fun x =>
    ⟨rol32_eq (by decide), rol32_eq (by decide), rol32_eq (by decide), rol32_eq (by decide)⟩
  induction hash, name using daHashnameFrom.induct with
  | case1 hash a b c d name ih =>
    rw [daHashnameFrom, ih, (hshift a).1, (hshift b).2.1, (hshift c).2.2.1, (hshift d).2.2.2,
      (hrol hash).1]
    simp only [map_cons, rotHash_cons, rotateLeft_xor, rotateLeft_rotateLeft]
    congr 1
    ac_rfl
  | case2 hash a b c =>
    rw [daHashnameFrom, (hshift a).2.1, (hshift b).2.2.1, (hshift c).2.2.2, (hrol hash).2.1]
    simp only [map_cons, map_nil, rotHash_cons, rotHash_nil, rotateLeft_xor, rotateLeft_rotateLeft]
    ac_rfl
  | case3 hash a b =>
    rw [daHashnameFrom, (hshift a).2.2.1, (hshift b).2.2.2, (hrol hash).2.2.1]
    simp only [map_cons, map_nil, rotHash_cons, rotHash_nil, rotateLeft_xor, rotateLeft_rotateLeft]
    ac_rfl
  | case4 hash a =>
    rw [daHashnameFrom, (hshift a).2.2.2, (hrol hash).2.2.2]
    rfl
  | case5 => rfl

theorem nameHash_eq (isCiName : Bool) (name : List NameByte) :
    nameHash isCiName name = rotHash 7 0 (name.map (hashChar isCiName)) := by
  cases isCiName with
  | false => exact daHashnameFrom_eq 0 name
  | true =>
    rw [rotHash, foldl_map]
    congr 1

variable {random : Nat → Nat} {hash newHash h : BitVec 32} {isCiName : Bool}
  {count next nameLen tries : Nat} {highBit highBit' first : NameByte} {cs name new : List NameByte}
  {bitseq b p : Nat}

theorem randomFilenameChar_valid (r : Nat) : isInvalidChar (randomFilenameChar r) = false := by
  have hall : ∀ c ∈ filenameAlphabet, isInvalidChar c = false := by decide
  have hlt : r % filenameAlphabet.length < filenameAlphabet.length :=
    Nat.mod_lt _ (by decide)
  rw [randomFilenameChar, getD_eq_getElem?_getD, getElem?_eq_getElem hlt]
  exact hall _ (getElem_mem hlt)

theorem fillPrefix_spec (hfill : fillPrefix random isCiName count next hash = (cs, h)) :
    cs.length = count ∧ ValidName cs ∧ h = rotHash 7 hash (cs.map (hashChar isCiName)) := by
  induction count generalizing next hash cs with
  | zero =>
    obtain ⟨rfl, rfl⟩ := Prod.mk.inj hfill
    exact ⟨rfl, fun c hc => absurd hc not_mem_nil, rfl⟩
  | succ count ih =>
    obtain ⟨rfl, rfl⟩ := Prod.mk.inj hfill
    obtain ⟨hlen, hvalid, hhash⟩ := ih (Prod.ext rfl rfl)
    refine ⟨by rw [length_cons, hlen], ?_, ?_⟩
    · intro c hc
      rcases mem_cons.mp hc with rfl | hc
      · exact randomFilenameChar_valid _
      · exact hvalid c hc
    · rw [hhash, map_cons, rotHash_cons]
      congr 1
      cases isCiName <;> rfl

def carry (highBit : NameByte) : BitVec 32 := if highBit = 0 then 0 else 1

theorem shift_seven (n : Nat) :
    ((newHash >>> n) &&& 0x7f#32) ^^^ (newHash >>> (n + 7)).rotateLeft 7 = newHash >>> n := by
  refine BitVec.eq_of_getLsbD_eq fun i hi => ?_
  have hmask : (0x7f#32).getLsbD i = decide (i < 7) := by
    interval_cases i <;> rfl
  rw [BitVec.getLsbD_xor, BitVec.getLsbD_and, hmask, BitVec.getLsbD_rotateLeft_of_le (by decide),
    BitVec.getLsbD_ushiftRight, BitVec.getLsbD_ushiftRight, BitVec.getLsbD_ushiftRight,
    decide_eq_true hi]
  by_cases hlt : i < 7
  · have hbig : newHash.getLsbD (n + 7 + (32 - 7 + i)) = false :=
      BitVec.getLsbD_of_ge _ _ (by omega)
    simp [hlt, hbig]
  · rw [show n + 7 + (i - 7) = n + i by omega]
    simp [hlt]

theorem setWidth_seven_bits (x : BitVec 32) :
    ((x &&& 0x7f#32).setWidth 8).setWidth 32 = x &&& 0x7f#32 := by
  refine BitVec.eq_of_getLsbD_eq fun i hi => ?_
  by_cases h8 : i < 8
  · simp [h8, hi]
  · have hmask : (0x7f#32).getLsbD i = false := by
      interval_cases i <;> rfl
    simp [h8, hmask]

theorem carry_rotate (hbit : highBit = 0 ∨ highBit = 0x80#8) :
    (carry highBit).rotateLeft 7 = highBit.setWidth 32 := by
  rcases hbit with rfl | rfl <;> decide

theorem solveTail_step (n : Nat) (hbit : highBit = 0 ∨ highBit = 0x80#8) (d : NameByte) :
    (((newHash >>> n) &&& 0x7f#32).setWidth 8 ^^^ highBit ^^^ d).setWidth 32 ^^^
      ((newHash >>> (n + 7)) ^^^ carry highBit).rotateLeft 7 =
      (newHash >>> n) ^^^ d.setWidth 32 := by
  rw [BitVec.setWidth_xor, BitVec.setWidth_xor, setWidth_seven_bits, rotateLeft_xor,
    carry_rotate hbit]
  calc _ = ((newHash >>> n) &&& 0x7f#32) ^^^ (newHash >>> (n + 7)).rotateLeft 7 ^^^
        d.setWidth 32 ^^^ (highBit.setWidth 32 ^^^ highBit.setWidth 32) := by ac_rfl
    _ = _ := by rw [shift_seven, BitVec.xor_self, BitVec.xor_zero]

theorem flip_valid (h : isInvalidChar c) : isInvalidChar (c ^^^ 1#8) = false := by
  revert c
  decide

theorem hashChar_eq (h : isCiName → asciiCiNeedXfrm c = false) :
    hashChar isCiName c = c.setWidth 32 := by
  cases isCiName with
  | false => rfl
  | true => simp [hashChar, asciiCiXfrm, h rfl]

theorem solveTail_succ
    (hsolve : solveTail newHash isCiName (count + 1) highBit = some (cs, highBit')) :
    ∃ c d bit cs', cs = c :: cs' ∧
      c = ((newHash >>> (7 * count)) &&& 0x7f#32).setWidth 8 ^^^ highBit ^^^ d ∧
      (d = 0#8 ∧ bit = 0#8 ∨ d = 1#8 ∧ bit = 0x80#8) ∧ isInvalidChar c = false ∧
      (isCiName → asciiCiNeedXfrm c = false) ∧
      solveTail newHash isCiName count bit = some (cs', highBit') := by
  rw [solveTail] at hsolve
  obtain ⟨c, d, bit, hc, hbit, hvalid, hpair⟩ : ∃ c d bit,
      c = ((newHash >>> (7 * count)) &&& 0x7f#32).setWidth 8 ^^^ highBit ^^^ d ∧
      (d = 0#8 ∧ bit = 0#8 ∨ d = 1#8 ∧ bit = 0x80#8) ∧ isInvalidChar c = false ∧
      (if isInvalidChar (((newHash >>> (7 * count)) &&& 0x7f#32).setWidth 8 ^^^ highBit) then
        (((newHash >>> (7 * count)) &&& 0x7f#32).setWidth 8 ^^^ highBit ^^^ 1#8, 0x80#8)
        else (((newHash >>> (7 * count)) &&& 0x7f#32).setWidth 8 ^^^ highBit, 0#8)) = (c, bit) := by
    cases hinv : isInvalidChar (((newHash >>> (7 * count)) &&& 0x7f#32).setWidth 8 ^^^ highBit) with
    | true => exact ⟨_, 1#8, 0x80#8, rfl, .inr ⟨rfl, rfl⟩, flip_valid hinv, rfl⟩
    | false => exact ⟨_, 0#8, 0#8, by rw [BitVec.xor_zero], .inl ⟨rfl, rfl⟩, hinv, rfl⟩
  simp only [hpair] at hsolve
  split_ifs at hsolve with hci
  have hneed : isCiName → asciiCiNeedXfrm c = false := by
    rintro rfl
    simpa using hci
  cases hrest : solveTail newHash isCiName count bit with
  | none => rw [hrest] at hsolve; cases hsolve
  | some p =>
    rw [hrest] at hsolve
    obtain ⟨rfl, rfl⟩ := Prod.mk.inj (Option.some.inj hsolve)
    exact ⟨c, d, bit, p.1, rfl, hc, hbit, hvalid, hneed, hrest⟩

theorem solveTail_spec (hbit : highBit = 0 ∨ highBit = 0x80#8)
    (hsolve : solveTail newHash isCiName count highBit = some (cs, highBit')) :
    cs.length = count ∧ ValidName cs ∧ (∀ c ∈ cs, isCiName → asciiCiNeedXfrm c = false) ∧
      (highBit' = 0 ∨ highBit' = 0x80#8) ∧
      rotHash 7 ((newHash >>> (7 * count)) ^^^ carry highBit) (cs.map (hashChar isCiName)) =
        newHash ^^^ carry highBit' := by
  induction count generalizing highBit cs with
  | zero =>
    obtain ⟨rfl, rfl⟩ := Prod.mk.inj (Option.some.inj hsolve)
    exact ⟨rfl, fun c hc => absurd hc not_mem_nil, fun c hc => absurd hc not_mem_nil, hbit, rfl⟩
  | succ count ih =>
    obtain ⟨c, d, bit, cs', rfl, hc, hcase, hvalid, hneed, hrest⟩ := solveTail_succ hsolve
    have hbit' : bit = 0 ∨ bit = 0x80#8 := hcase.imp And.right And.right
    have hd : d.setWidth 32 = carry bit := by
      rcases hcase with ⟨rfl, rfl⟩ | ⟨rfl, rfl⟩ <;> decide
    obtain ⟨hlen, hvalids, hneeds, hlast, hhash⟩ := ih hbit' hrest
    refine ⟨by rw [length_cons, hlen], ?_, ?_, hlast, ?_⟩
    · intro x hx
      rcases mem_cons.mp hx with rfl | hx
      · exact hvalid
      · exact hvalids x hx
    · intro x hx
      rcases mem_cons.mp hx with rfl | hx
      · exact hneed
      · exact hneeds x hx
    · rw [map_cons, rotHash_cons, hashChar_eq hneed, hc,
        show 7 * (count + 1) = 7 * count + 7 by omega, solveTail_step _ hbit, hd, hhash]

theorem solveTail_first {rest : List NameByte}
    (hsolve : solveTail newHash isCiName 5 0 = some (first :: rest, highBit)) :
    isInvalidChar (first ^^^ 0x10#8) = false := by
  obtain ⟨c, d, bit, cs', heq, hc, hcase, -⟩ := solveTail_succ hsolve
  obtain ⟨rfl, -⟩ := List.cons.inj heq
  have hfour : ((newHash >>> (7 * 4)) &&& 0x7f#32).setWidth 8 &&& 0xf0#8 = 0 := by
    refine BitVec.eq_of_getLsbD_eq fun i hi => ?_
    rw [BitVec.getLsbD_and, BitVec.getLsbD_setWidth, BitVec.getLsbD_and, BitVec.getLsbD_ushiftRight]
    by_cases h4 : i < 4
    · have hmask : (0xf0#8).getLsbD i = false := by
        interval_cases i <;> rfl
      simp [hmask]
    · have hbig : newHash.getLsbD (7 * 4 + i) = false := BitVec.getLsbD_of_ge _ _ (by omega)
      simp [hbig]
  rw [hc]
  generalize ((newHash >>> (7 * 4)) &&& 0x7f#32).setWidth 8 = x at hfour
  rcases hcase with ⟨rfl, -⟩ | ⟨rfl, -⟩ <;>
    · revert x
      decide

theorem tail_hash {start tail : List (BitVec 32)} (hlen : tail.length = 5)
    (htail : rotHash 7 0 tail = rol32 (rotHash 7 0 start) 3 ^^^ hash) :
    rotHash 7 0 (start ++ tail) = hash := by
  have hrot : ∀ x : BitVec 32, x.rotateLeft (7 * 5) = rol32 x 3 := fun x => rfl
  have hstart : rotHash 7 0 start = 0 ^^^ rotHash 7 0 start := BitVec.zero_xor.symm
  rw [rotHash_append, hstart, rotHash_xor, htail, hlen, hrot, BitVec.xor_comm, ← BitVec.xor_assoc,
    BitVec.xor_self, BitVec.zero_xor]

theorem first_hash {rest : List (BitVec 32)} (hlen : rest.length = 4) :
    rotHash 7 0 ((first ^^^ 0x10#8).setWidth 32 :: rest) =
      rotHash 7 0 (first.setWidth 32 :: rest) ^^^ 1 := by
  have hrot : ((0x10#8).setWidth 32).rotateLeft (7 * 4) = 1 := by decide
  rw [BitVec.setWidth_xor, ← nil_append ((_ ^^^ _) :: rest), rotHash_flip, hlen, hrot]
  rfl

theorem obfuscateTry_spec (hlen : 5 ≤ nameLen)
    (htry : obfuscateTry random hash nameLen isCiName next = some name) :
    name.length = nameLen ∧ nameHash isCiName name = hash ∧ ValidName name := by
  rw [obfuscateTry] at htry
  obtain ⟨start, newHash, hfill⟩ : ∃ start newHash,
      fillPrefix random isCiName (nameLen - 5) next 0 = (start, newHash) := ⟨_, _, rfl⟩
  obtain ⟨hstart, hstartValid, rfl⟩ := fillPrefix_spec hfill
  simp only [hfill] at htry
  cases hsolve : solveTail (rol32 (rotHash 7 0 (start.map (hashChar isCiName))) 3 ^^^ hash)
      isCiName 5 0 with
  | none => rw [hsolve] at htry; cases htry
  | some p =>
    obtain ⟨tail, highBit⟩ := p
    obtain ⟨htail, htailValid, hneed, hbit, hhash⟩ := solveTail_spec (.inl rfl) hsolve
    obtain ⟨first, rest, rfl⟩ := exists_cons_of_length_eq_add_one htail
    have hrest : rest.length = 4 := by simpa using htail
    have hfirst := hneed first mem_cons_self
    rw [BitVec.ushiftRight_eq_zero (by decide), show 0#32 ^^^ carry 0 = 0 from rfl,
      map_cons, hashChar_eq hfirst] at hhash
    -- it is enough to know the first byte
    have hdone : ∀ first', isInvalidChar first' = false →
        rotHash 7 0 (hashChar isCiName first' :: rest.map (hashChar isCiName)) =
          rol32 (rotHash 7 0 (start.map (hashChar isCiName))) 3 ^^^ hash →
        name = start ++ first' :: rest →
        name.length = nameLen ∧ nameHash isCiName name = hash ∧ ValidName name := by
      rintro first' hvalid hhash' rfl
      refine ⟨?_, ?_, ?_⟩
      · rw [length_append, length_cons, hstart, hrest]
        omega
      · rw [nameHash_eq, map_append, map_cons]
        exact tail_hash (by simp [hrest]) hhash'
      · intro c hc
        rcases mem_append.mp hc with hc | hc
        · exact hstartValid c hc
        · rcases mem_cons.mp hc with rfl | hc
          · exact hvalid
          · exact htailValid c (mem_cons_of_mem _ hc)
    rw [hsolve] at htry
    simp only at htry
    split_ifs at htry with hb hci
    · have hci' : isCiName → asciiCiNeedXfrm (first ^^^ 0x10#8) = false := by
        rintro rfl
        simpa using hci
      refine hdone _ (solveTail_first hsolve) ?_ (Option.some.inj htry).symm
      rw [hashChar_eq hci', first_hash (by simp [hrest]), hhash, carry, if_neg hb,
        BitVec.xor_assoc, BitVec.xor_self, BitVec.xor_zero]
    · refine hdone _ (htailValid _ mem_cons_self) ?_ (Option.some.inj htry).symm
      rw [hashChar_eq hfirst, hhash, carry, if_pos (not_not.mp hb)]
      exact BitVec.xor_zero

theorem solveTail_plain : ∃ cs bit, solveTail newHash false count highBit = some (cs, bit) := by
  induction count generalizing highBit with
  | zero => exact ⟨[], highBit, rfl⟩
  | succ count ih =>
    rw [solveTail]
    simp only [Bool.false_and, Bool.false_eq_true, if_false]
    obtain ⟨cs, bit, hrest⟩ := @ih (if isInvalidChar (((newHash >>> (7 * count)) &&&
      0x7f#32).setWidth 8 ^^^ highBit) then (((newHash >>> (7 * count)) &&& 0x7f#32).setWidth 8 ^^^
      highBit ^^^ 1#8, 0x80#8) else (((newHash >>> (7 * count)) &&& 0x7f#32).setWidth 8 ^^^
      highBit, 0#8)).2
    rw [hrest]
    exact ⟨_, _, rfl⟩

theorem obfuscateTry_plain : ∃ name, obfuscateTry random hash nameLen false next = some name := by
  rw [obfuscateTry]
  obtain ⟨start, newHash, hfill⟩ : ∃ start newHash,
      fillPrefix random false (nameLen - 5) next 0 = (start, newHash) := ⟨_, _, rfl⟩
  simp only [hfill]
  obtain ⟨cs, bit, hsolve⟩ : ∃ cs bit,
      solveTail (rol32 newHash 3 ^^^ hash) false 5 0 = some (cs, bit) := solveTail_plain
  obtain ⟨htail, -⟩ := solveTail_spec (.inl rfl) hsolve
  obtain ⟨first, rest, rfl⟩ := exists_cons_of_length_eq_add_one htail
  simp only [hsolve, Bool.false_and, Bool.false_eq_true, if_false]
  split_ifs <;> exact ⟨_, rfl⟩

theorem obfuscateLoop_spec {oldname : Option (List NameByte)} (hlen : 5 ≤ nameLen)
    (hloop : obfuscateLoop random hash nameLen isCiName oldname tries next = some name) :
    oldname = some name ∨
      name.length = nameLen ∧ nameHash isCiName name = hash ∧ ValidName name := by
  induction tries generalizing next with
  | zero => exact .inl hloop
  | succ tries ih =>
    rw [obfuscateLoop] at hloop
    cases htry : obfuscateTry random hash nameLen isCiName next with
    | none => exact ih (by rwa [htry] at hloop)
    | some name' =>
      rw [htry] at hloop
      obtain rfl := Option.some.inj hloop
      exact .inr (obfuscateTry_spec hlen htry)

theorem obfuscateLoop_ci :
    ∃ new, obfuscateLoop random hash nameLen isCiName (some name) tries next = some new := by
  induction tries generalizing next with
  | zero => exact ⟨name, rfl⟩
  | succ tries ih =>
    rw [obfuscateLoop]
    cases obfuscateTry random hash nameLen isCiName next with
    | none => exact ih
    | some new => exact ⟨new, rfl⟩

theorem obfuscateName_spec (isDirent hasAsciici : Bool) (hlen : 5 ≤ name.length)
    (hvalid : ValidName name) :
    ∃ new, obfuscateName random (nameHash (isDirent && hasAsciici) name) name isDirent hasAsciici =
        some new ∧ new.length = name.length ∧
      nameHash (isDirent && hasAsciici) new = nameHash (isDirent && hasAsciici) name ∧
      ValidName new := by
  rw [obfuscateName, if_neg (by omega)]
  generalize (isDirent && hasAsciici) = isCiName
  obtain ⟨new, hnew⟩ : ∃ new, obfuscateLoop random (nameHash isCiName name) name.length isCiName
      (if isCiName then some name else none) 1001 0 = some new := by
    cases isCiName with
    | true => exact obfuscateLoop_ci
    | false =>
      obtain ⟨new, htry⟩ : ∃ new, obfuscateTry random (nameHash false name) name.length false 0 =
          some new := obfuscateTry_plain
      exact ⟨new, by rw [obfuscateLoop, htry]⟩
  refine ⟨new, hnew, ?_⟩
  rcases obfuscateLoop_spec hlen hnew with hold | hdone
  · split_ifs at hold
    obtain rfl := Option.some.inj hold
    exact ⟨rfl, rfl, hvalid⟩
  · exact hdone

theorem bitToFlip_match : ∀ row ∈ bitToFlip, row.1.1 < row.2.1 ∧ row.1.2 < 8 ∧ row.2.2 < 8 ∧
    (row.1.2 + 7 * (row.2.1 - row.1.1)) % 32 = row.2.2 % 32 := by
  decide

theorem bitToFlip_sorted : ∀ j < bitToFlip.length, ∀ i ≤ j,
    (bitToFlip.getD i ((0, 0), (0, 0))).2.1 ≤ (bitToFlip.getD j ((0, 0), (0, 0))).2.1 := by
  decide

theorem bitToFlip_usable (hn : 2 ≤ n) :
    (bitToFlip.takeWhile fun row => decide (row.2.1 < n)).length - 1 < bitToFlip.length ∧
    (bitToFlip.getD ((bitToFlip.takeWhile fun row => decide (row.2.1 < n)).length - 1)
      ((0, 0), (0, 0))).2.1 < n := by
  have hpre := takeWhile_prefix (fun row : (Nat × Nat) × (Nat × Nat) => decide (row.2.1 < n))
    (l := bitToFlip)
  generalize hrows : (bitToFlip.takeWhile fun row => decide (row.2.1 < n)) = rows at *
  have hpos : 0 < rows.length := by
    rw [← hrows, bitToFlip, takeWhile_cons, if_pos (decide_eq_true (show 1 < n by omega))]
    exact Nat.succ_pos _
  have hlt : rows.length - 1 < bitToFlip.length := lt_of_lt_of_le (by omega) hpre.length_le
  refine ⟨hlt, ?_⟩
  have hall : ∀ row ∈ rows, row.2.1 < n := by
    intro row hrow
    rw [← hrows] at hrow
    have hp := mem_takeWhile_imp hrow
    exact of_decide_eq_true hp
  rw [getD_eq_getElem?_getD, getElem?_eq_getElem hlt, Option.getD_some, ← hpre.getElem (by omega)]
  exact hall _ (getElem_mem _)

theorem bit_setWidth (hb : b < 8) : (1#8 <<< b).setWidth 32 = BitVec.twoPow 32 b := by
  interval_cases b <;> decide

theorem daHashname_set (hp : p < name.length) (hb : b < 8) :
    daHashname (name.set p (name.getD p 0 ^^^ (1#8 <<< b))) =
      daHashname name ^^^ BitVec.twoPow 32 ((b + 7 * (name.length - p - 1)) % 32) := by
  have hp' : p < (name.map (hashChar false)).length := by rwa [length_map]
  have hchar : hashChar false (name.getD p 0 ^^^ (1#8 <<< b)) =
      (name.map (hashChar false))[p] ^^^ BitVec.twoPow 32 b := by
    rw [getElem_map, ← bit_setWidth hb, getD_eq_getElem?_getD, getElem?_eq_getElem hp]
    exact BitVec.setWidth_xor
  rw [daHashname, daHashname, daHashnameFrom_eq, daHashnameFrom_eq, map_set, hchar,
    rotHash_set hp', rotateLeft_twoPow (by omega), length_map]

theorem ValidName.set (h : ValidName name) (hc : isInvalidChar c = false) :
    ValidName (name.set p c) := by
  intro x hx
  rcases mem_or_eq_of_mem_set hx with hx | rfl
  · exact h x hx
  · exact hc

theorem flipBit_spec (hlen : 2 ≤ name.length) (hflip : flipBit name bitseq = (new, 1)) :
    new.length = name.length ∧ daHashname new = daHashname name ∧
      (ValidName name → ValidName new) := by
  obtain ⟨hindex, hlast⟩ := bitToFlip_usable hlen
  rw [flipBit] at hflip
  generalize (bitToFlip.takeWhile fun row => decide (row.2.1 < name.length)).length - 1 = index
    at hindex hlast hflip
  simp only at hflip
  split_ifs at hflip with hseq hinv
  · cases hflip
  · cases hflip
  have hsorted := bitToFlip_sorted index hindex (index - bitseq) (by omega)
  have hrow : bitToFlip.getD (index - bitseq) ((0, 0), (0, 0)) ∈ bitToFlip := by
    rw [getD_eq_getElem?_getD, getElem?_eq_getElem (by omega), Option.getD_some]
    exact getElem_mem _
  obtain ⟨hbytes, hb0, hb1, hmatch⟩ := bitToFlip_match _ hrow
  generalize bitToFlip.getD (index - bitseq) ((0, 0), (0, 0)) = row at *
  generalize (bitToFlip.getD index ((0, 0), (0, 0))).2.1 = last at *
  generalize hoff : name.length - (last + 1) = offset at *
  obtain rfl := (Prod.mk.inj hflip).1
  have hp0 : offset + row.1.1 < name.length := by omega
  have hp1 : offset + row.2.1 < name.length := by omega
  rw [Bool.or_eq_true, not_or, Bool.not_eq_true, Bool.not_eq_true] at hinv
  refine ⟨by rw [length_set, length_set], ?_, fun h => (h.set hinv.1).set hinv.2⟩
  -- the second byte is not the one changed first
  have hsecond : name.getD (offset + row.2.1) 0 = (name.set (offset + row.1.1)
      (name.getD (offset + row.1.1) 0 ^^^ (1#8 <<< row.1.2))).getD (offset + row.2.1) 0 := by
    rw [getD_eq_getElem?_getD, getD_eq_getElem?_getD, getElem?_set_ne (by omega)]
  have hbit : (row.1.2 + 7 * (name.length - (offset + row.1.1) - 1)) % 32 =
      (row.2.2 + 7 * (name.length - (offset + row.2.1) - 1)) % 32 := by
    omega
  rw [hsecond, daHashname_set (by rwa [length_set]) hb1, length_set,
    daHashname_set hp0 hb0, hbit, BitVec.xor_assoc, BitVec.xor_self, BitVec.xor_zero]

theorem flipBit_result (name : List NameByte) (bitseq : Nat) :
    (flipBit name bitseq).2 = -1 ∨ (flipBit name bitseq).2 = 0 ∨ (flipBit name bitseq).2 = 1 := by
  rw [flipBit]
  simp only
  split_ifs
  · exact .inl rfl
  · exact .inr (.inl rfl)
  · exact .inr (.inr rfl)

theorem findAlternateLoop_spec {bits : BitVec 32} (hlen : 2 ≤ name.length)
    (hloop : findAlternateLoop count bitseq bits name = (new, 1)) :
    new.length = name.length ∧ daHashname new = daHashname name ∧
      (ValidName name → ValidName new) := by
  induction count generalizing bitseq bits name with
  | zero =>
    obtain rfl := (Prod.mk.inj hloop).1
    exact ⟨rfl, rfl, id⟩
  | succ count ih =>
    rw [findAlternateLoop] at hloop
    simp only at hloop
    split_ifs at hloop with hbits hmask hfb hzero
    · obtain rfl := (Prod.mk.inj hloop).1
      exact ⟨rfl, rfl, id⟩
    · exact ih hlen hloop
    · cases (Prod.mk.inj hloop).2
    · cases (Prod.mk.inj hloop).2
    · have hone : (flipBit name bitseq).2 = 1 := by
        rcases flipBit_result name bitseq with h | h | h
        · omega
        · omega
        · exact h
      have hone : flipBit name bitseq = ((flipBit name bitseq).1, 1) := Prod.ext rfl hone
      obtain ⟨hlen1, hhash1, hvalid1⟩ := flipBit_spec hlen hone
      obtain ⟨hlen2, hhash2, hvalid2⟩ := ih (by rwa [hlen1]) hloop
      exact ⟨hlen2.trans hlen1, hhash2.trans hhash1, fun h => hvalid2 (hvalid1 h)⟩

theorem findAlternateLoop_result (count bitseq : Nat) (bits : BitVec 32) (name : List NameByte) :
    (findAlternateLoop count bitseq bits name).2 = -1 ∨
      (findAlternateLoop count bitseq bits name).2 = 0 ∨
      (findAlternateLoop count bitseq bits name).2 = 1 := by
  induction count generalizing bitseq bits name with
  | zero => exact .inr (.inr rfl)
  | succ count ih =>
    rw [findAlternateLoop]
    simp only
    split_ifs
    · exact .inr (.inr rfl)
    · exact ih _ _ _
    · exact .inl rfl
    · exact .inr (.inl rfl)
    · exact ih _ _ _

theorem findAlternate_result (name : List NameByte) (seq : BitVec 32) :
    (findAlternate name seq).2 = -1 ∨ (findAlternate name seq).2 = 0 ∨
      (findAlternate name seq).2 = 1 := by
  rw [findAlternate]
  split_ifs
  · exact .inr (.inr rfl)
  · exact .inl rfl
  · exact findAlternateLoop_result 32 0 seq name

theorem findAlternate_spec {seq : BitVec 32} (hfind : findAlternate name seq = (new, 1)) :
    new.length = name.length ∧ daHashname new = daHashname name ∧
      (ValidName name → ValidName new) := by
  rw [findAlternate] at hfind
  split_ifs at hfind with hseq hlen
  · obtain rfl := (Prod.mk.inj hfind).1
    exact ⟨rfl, rfl, id⟩
  · cases (Prod.mk.inj hfind).2
  · exact findAlternateLoop_spec (by omega) hfind

/-- Obfuscated names and alternates keep the length and the hash and are valid. -/
theorem obfuscation_preserves :
    (∀ (name : List NameByte) (random : Nat → Nat) (isDirent hasAsciici : Bool),
      5 ≤ name.length → ValidName name →
      ∃ new, obfuscateName random (nameHash (isDirent && hasAsciici) name) name isDirent
          hasAsciici = some new ∧ new.length = name.length ∧
        nameHash (isDirent && hasAsciici) new = nameHash (isDirent && hasAsciici) name ∧
        ValidName new) ∧
    ∀ (name : List NameByte) (seq : BitVec 32) (new : List NameByte),
      findAlternate name seq = (new, 1) →
      new.length = name.length ∧ daHashname new = daHashname name ∧
        (ValidName name → ValidName new) :=
  ⟨fun _ _ isDirent hasAsciici hlen hvalid => obfuscateName_spec isDirent hasAsciici hlen hvalid,
    fun _ _ _ hfind => findAlternate_spec hfind⟩

/-- The name "hello", and its alternate in the last two bytes. -/
theorem obfuscation_preserves_hello :
    (∃ new, obfuscateName (fun n => n) (nameHash true [0x68, 0x65, 0x6c, 0x6c, 0x6f])
        [0x68, 0x65, 0x6c, 0x6c, 0x6f] true true = some new ∧ new.length = 5 ∧
      nameHash true new = nameHash true [0x68, 0x65, 0x6c, 0x6c, 0x6f] ∧ ValidName new) ∧
    findAlternate [0x68, 0x65, 0x6c, 0x6c, 0x6f] 1 = ([0x68, 0x65, 0x6c, 0x6d, 0xef], 1) ∧
    daHashname [0x68, 0x65, 0x6c, 0x6d, 0xef] = daHashname [0x68, 0x65, 0x6c, 0x6c, 0x6f] :=
  ⟨obfuscation_preserves.1 [0x68, 0x65, 0x6c, 0x6c, 0x6f] (fun n => n) true true (by decide)
      (by decide), by decide,
    (obfuscation_preserves.2 [0x68, 0x65, 0x6c, 0x6c, 0x6f] 1 [0x68, 0x65, 0x6c, 0x6d, 0xef]
      (by decide)).2.1⟩

/-- Only the two bytes that a flip changes are checked, so the slash in "a/bc" stays and the answer
is that the alternate is a valid name. -/
theorem find_alternate_keeps_slash :
    findAlternate [0x61, 0x2f, 0x62, 0x63] 1 = ([0x61, 0x2f, 0x63, 0xe3], 1) ∧
      ¬ ValidName [0x61, 0x2f, 0x63, 0xe3] :=
  ⟨by decide, by decide⟩

end Xfs

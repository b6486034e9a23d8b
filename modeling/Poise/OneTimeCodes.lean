import Poise.StreamingSha1

/-!
# Poise client: one-time codes

The client computes HOTP codes with an HMAC that shares the static variables of
the streaming SHA-1: one hash after the other is computed in them, first over a
long key, then over the inner and the outer message.

A code depends on the key and the number of steps only.  Calls that came before
leave other contents in the static variables, but nothing of them is read.
-/

namespace Poise

open Foundations

section OneTimeCodes

def hmacIpad : BitVec 8 := 0x36

def hmacOpad : BitVec 8 := 0x5c

/-- Write the bytes of the key buffer, each with a mask. -/
def writeKey (mask : BitVec 8) (s : Sha1Static) : Sha1Static :=
  (List.range 64).foldl (fun s i => sha1Write s (s.keyBuffer.elems.getD i 0 ^^^ mask)) s

/-- `sha1_initHmac`; the key is the memory from its pointer on. -/
def sha1InitHmac (key : Octets) (keyLength : Nat) (s : Sha1Static) : Option Sha1Static :=
  let s := { s with keyBuffer := s.keyBuffer.store 0 (List.replicate 64 0) }
  let keyed :=
    if keyLength > 64 then
      (sha1Result ((key.take keyLength).foldl sha1Write (sha1Init s))).map fun s =>
        { s with keyBuffer := s.keyBuffer.store 0 s.sha1State.elems }
    else
      some { s with keyBuffer := s.keyBuffer.store 0 (key.take keyLength) }
  keyed.map fun s => writeKey hmacIpad (sha1Init s)

def sha1ResultHmac (s : Sha1Static) : Option Sha1Static :=
  (sha1Result s).bind fun s =>
    let s := { s with innerHash := s.innerHash.store 0 s.sha1State.elems }
    let s := writeKey hmacOpad (sha1Init s)
    let s := (List.range 20).foldl (fun s i => sha1Write s (s.innerHash.elems.getD i 0)) s
    sha1Result s

def sha1WriteArray (buffer : Octets) (s : Sha1Static) : Sha1Static :=
  buffer.foldl sha1Write s

/-- All static variables: those of the codes and those of the hash. -/
structure TotpStatic where
  hmacKey : Octets
  keyLength : BitVec 8
  timezone : BitVec 8
  timeStep : BitVec 32
  sha1 : Sha1Static

def totpInit (hmacKey : Octets) (keyLength : BitVec 8) (timeStep : BitVec 32) (s : TotpStatic) :
    TotpStatic :=
  { s with hmacKey := hmacKey, keyLength := keyLength, timeStep := timeStep }

def totpSetTimezone (timezone : BitVec 8) (s : TotpStatic) : TotpStatic :=
  { s with timezone := timezone }

/-- The number of steps in eight bytes. -/
def byteArray (steps : BitVec 32) : Octets :=
  [0x00, 0x00, 0x00, 0x00, BitVec.setWidth 8 ((steps >>> 24) &&& 0xff),
   BitVec.setWidth 8 ((steps >>> 16) &&& 0xff), BitVec.setWidth 8 ((steps >>> 8) &&& 0xff),
   BitVec.setWidth 8 (steps &&& 0xff)]

/-- The loop over four bytes of the hash; a byte outside of it cannot be read. -/
def truncateLoop (hash : Octets) (offset : Nat) : Nat → Option (BitVec 32)
  | 0 => some 0
  | j + 1 =>
      (truncateLoop hash offset j).bind fun truncated =>
        hash[offset + j]?.map fun x => (truncated <<< 8) ||| BitVec.setWidth 32 x

def totpGetCodeFromSteps (steps : BitVec 32) (s : TotpStatic) : Option (BitVec 32 × TotpStatic) :=
  (sha1InitHmac s.hmacKey s.keyLength.toNat s.sha1).bind fun h =>
    (sha1ResultHmac (sha1WriteArray (byteArray steps) h)).bind fun h =>
      let hash := h.sha1State.elems
      hash[19]?.bind fun last =>
        (truncateLoop hash (last &&& 0xf).toNat 4).map fun truncated =>
          ((truncated &&& 0x7fffffff) % 1000000, { s with sha1 := h })

/-- The division is by the time step that was set. -/
def totpGetCodeFromTimestamp (timeStamp : BitVec 32) (s : TotpStatic) :
    Option (BitVec 32 × TotpStatic) :=
  if s.timeStep = 0 then
    none
  else
    let steps := (timeStamp - 3600 * BitVec.setWidth 32 (s.timezone % 2)) / s.timeStep
    totpGetCodeFromSteps steps s

/-- The time in seconds is what `mktime` makes of the broken-down time. -/
def totpGetCodeFromTimeStruct (currentSec : BitVec 64) (s : TotpStatic) :
    Option (BitVec 32 × TotpStatic) :=
  let timestamp := currentSec - BitVec.setWidth 64 s.timezone * 3600 - 2208988800
  totpGetCodeFromTimestamp (BitVec.setWidth 32 timestamp) s

/-- A call into the code generator. -/
inductive TotpCall where
  | init (hmacKey : Octets) (keyLength : BitVec 8) (timeStep : BitVec 32)
  | setTimezone (timezone : BitVec 8)
  | getCodeFromSteps (steps : BitVec 32)
  | getCodeFromTimestamp (timeStamp : BitVec 32)
  | getCodeFromTimeStruct (currentSec : BitVec 64)

/-- One call; there is no state after a fault. -/
def totpStep (s : TotpStatic) : TotpCall → Option TotpStatic
  | .init hmacKey keyLength timeStep => some (totpInit hmacKey keyLength timeStep s)
  | .setTimezone timezone => some (totpSetTimezone timezone s)
  | .getCodeFromSteps steps => (totpGetCodeFromSteps steps s).map Prod.snd
  | .getCodeFromTimestamp timeStamp => (totpGetCodeFromTimestamp timeStamp s).map Prod.snd
  | .getCodeFromTimeStruct currentSec => (totpGetCodeFromTimeStruct currentSec s).map Prod.snd

def TotpCall.isInit : TotpCall → Bool
  | .init _ _ _ => true
  | _ => false

section Hmac

/-- A loop that writes what it reads from variables that writing leaves alone. -/
theorem foldl_sha1Write_reads
    {read : Sha1Static → Octets}
    (hread : ∀ s x, read (sha1Write s x) = read s)
    (g : BitVec 8 → BitVec 8)
    (n : Nat)
    (s : Sha1Static) :
    (List.range n).foldl (fun s i => sha1Write s (g ((read s).getD i 0))) s =
      ((List.range n).map fun i => g ((read s).getD i 0)).foldl sha1Write s := by
  have hkept : ∀ (b : Octets) s, read (b.foldl sha1Write s) = read s := by
    intro b
    induction b with
    | nil =>
        intro s
        rfl
    | cons x b ih =>
        intro s
        exact (ih (sha1Write s x)).trans (hread s x)
  induction n with
  | zero =>
      rfl
  | succ n ih =>
      rw [List.range_succ, List.foldl_concat, ih, List.map_append, List.foldl_append, hkept]
      rfl

theorem map_getD_range
    {b : Octets} {n : Nat}
    (h : b.length = n)
    (g : BitVec 8 → BitVec 8) :
    ((List.range n).map fun i => g (b.getD i 0)) = b.map g := by
  subst h
  apply List.ext_getElem?
  intro i
  rw [List.getElem?_map, List.getElem?_map]
  by_cases hi : i < b.length
  · rw [List.getElem?_range hi, Option.map_some, List.getD_eq_getElem?_getD,
      List.getElem?_eq_getElem hi]
    rfl
  · rw [List.getElem?_eq_none (by rw [List.length_range]; omega),
      List.getElem?_eq_none (by omega)]
    rfl

theorem sha1Write_kept
    (s : Sha1Static)
    (x : BitVec 8) :
    (sha1Write s x).keyBuffer = s.keyBuffer ∧ (sha1Write s x).innerHash = s.innerHash :=
  (addUncounted_kept { s with byteCount := s.byteCount + 1 } x).2

/-- Writing the key buffer is writing its masked bytes. -/
theorem writeKey_eq
    (mask : BitVec 8)
    (s : Sha1Static) :
    writeKey mask s = (s.keyBuffer.elems.map (· ^^^ mask)).foldl sha1Write s := by
  have hloop := @foldl_sha1Write_reads (fun s => s.keyBuffer.elems)
    (fun s x => congrArg Buffer.elems (sha1Write_kept s x).1) (· ^^^ mask) 64 s
  rw [map_getD_range s.keyBuffer.length_eq (· ^^^ mask)] at hloop
  exact hloop

/-- A short key or hash stored over zeros. -/
theorem store_over_zeros
    {xs : Octets}
    (hxs : xs.length ≤ 64)
    (b : Buffer (BitVec 8) 64) :
    ((b.store 0 (List.replicate 64 0)).store 0 xs).elems =
      xs ++ List.replicate (64 - xs.length) 0 := by
  have hclear : (b.store 0 (List.replicate 64 0)).elems = List.replicate 64 0 :=
    b.elems_store_whole List.length_replicate
  rw [Buffer.elems_store, hclear, overwrite_zero (by rw [List.length_replicate]; exact hxs),
    List.drop_replicate]

/-- `sha1_initHmac` starts the inner hash with the block of the key. -/
theorem sha1InitHmac_spec
    {key : Octets}
    (hkey : key.length < 4294967296)
    (s : Sha1Static) :
    ∃ s', sha1InitHmac key key.length s = some s' ∧
      s'.keyBuffer.elems = keyBlock sha1 64 key ∧
      Written s' ((keyBlock sha1 64 key).map (· ^^^ 0x36)) := by
  -- What follows once the key buffer is filled.
  have hinner : ∀ keyed : Sha1Static, keyed.keyBuffer.elems = keyBlock sha1 64 key →
      (writeKey hmacIpad (sha1Init keyed)).keyBuffer.elems = keyBlock sha1 64 key ∧
        Written (writeKey hmacIpad (sha1Init keyed)) ((keyBlock sha1 64 key).map (· ^^^ 0x36)) := by
    intro keyed hkeyed
    have hbuffer : (sha1Init keyed).keyBuffer = keyed.keyBuffer := rfl
    rw [writeKey_eq, (foldl_sha1Write_kept _ _).1, hbuffer, hkeyed]
    exact ⟨rfl, (written_init keyed).writes _⟩
  rw [sha1InitHmac, List.take_length]
  dsimp only
  split
  · rename_i hlong
    obtain ⟨s', hresult, hstate, hkept, _⟩ := ((written_init
      { s with keyBuffer := s.keyBuffer.store 0 (List.replicate 64 0) }).writes key).result hkey
    obtain ⟨hkept', _⟩ := foldl_sha1Write_kept key
      (sha1Init { s with keyBuffer := s.keyBuffer.store 0 (List.replicate 64 0) })
    have hfilled : (s'.keyBuffer.store 0 s'.sha1State.elems).elems = keyBlock sha1 64 key := by
      have hlength : (sha1 key).length = 20 := by
        rw [← List.nil_append key, ← hstate]
        exact s'.sha1State.length_eq
      have hcleared : (sha1Init { s with
          keyBuffer := s.keyBuffer.store 0 (List.replicate 64 0) }).keyBuffer =
            s.keyBuffer.store 0 (List.replicate 64 0) := rfl
      rw [hkept, hkept', hcleared, hstate, List.nil_append, store_over_zeros (by omega), keyBlock,
        if_pos hlong]
    rw [hresult, Option.map_some, Option.map_some]
    exact ⟨_, rfl, hinner { s' with keyBuffer := s'.keyBuffer.store 0 s'.sha1State.elems } hfilled⟩
  · rename_i hshort
    have hfilled : ((s.keyBuffer.store 0 (List.replicate 64 0)).store 0 key).elems =
        keyBlock sha1 64 key := by
      rw [store_over_zeros (by omega), keyBlock, if_neg hshort]
    rw [Option.map_some]
    exact ⟨_, rfl, hinner { s with
      keyBuffer := (s.keyBuffer.store 0 (List.replicate 64 0)).store 0 key } hfilled⟩

/-- Writing the inner hash is writing its bytes. -/
theorem writeInnerHash_eq
    (s : Sha1Static) :
    (List.range 20).foldl (fun s i => sha1Write s (s.innerHash.elems.getD i 0)) s =
      s.innerHash.elems.foldl sha1Write s := by
  have hloop := @foldl_sha1Write_reads (fun s => s.innerHash.elems)
    (fun s x => congrArg Buffer.elems (sha1Write_kept s x).2) id 20 s
  rw [map_getD_range s.innerHash.length_eq id, List.map_id] at hloop
  exact hloop

/-- The outer hash, of the key buffer and the inner hash that are stored. -/
theorem outerHash_spec
    (s : Sha1Static) :
    ∃ s', sha1Result ((List.range 20).foldl
        (fun s i => sha1Write s (s.innerHash.elems.getD i 0)) (writeKey hmacOpad (sha1Init s))) =
          some s' ∧
      s'.sha1State.elems = sha1 (s.keyBuffer.elems.map (· ^^^ 0x5c) ++ s.innerHash.elems) := by
  have houter : writeKey hmacOpad (sha1Init s) =
      (s.keyBuffer.elems.map (· ^^^ 0x5c)).foldl sha1Write (sha1Init s) :=
    writeKey_eq hmacOpad (sha1Init s)
  have hinner : (writeKey hmacOpad (sha1Init s)).innerHash = s.innerHash := by
    rw [houter]
    exact (foldl_sha1Write_kept _ _).2
  have hwritten := ((written_init s).writes (s.keyBuffer.elems.map (· ^^^ 0x5c))).writes
    s.innerHash.elems
  rw [← houter, List.nil_append] at hwritten
  obtain ⟨s', hresult, hstate, _⟩ := hwritten.result (by
    rw [List.length_append, List.length_map, s.keyBuffer.length_eq, s.innerHash.length_eq]
    decide)
  rw [writeInnerHash_eq, hinner]
  exact ⟨s', hresult, hstate⟩

/-- `sha1_resultHmac` hashes the inner hash with the block of the key. -/
theorem sha1ResultHmac_spec
    {s : Sha1Static} {block message : Octets}
    (hs : Written s (block.map (· ^^^ 0x36) ++ message))
    (hblock : s.keyBuffer.elems = block)
    (hlen : message.length < 4294967296 - 64) :
    ∃ s', sha1ResultHmac s = some s' ∧
      s'.sha1State.elems =
        sha1 (block.map (· ^^^ 0x5c) ++ sha1 (block.map (· ^^^ 0x36) ++ message)) := by
  have hlength : block.length = 64 := by
    rw [← hblock]
    exact s.keyBuffer.length_eq
  obtain ⟨s₁, hresult, hinner, hkey, _⟩ := hs.result (by
    rw [List.length_append, List.length_map]
    omega)
  have hcopied : (s₁.innerHash.store 0 s₁.sha1State.elems).elems = s₁.sha1State.elems :=
    s₁.innerHash.elems_store_whole s₁.sha1State.length_eq
  obtain ⟨s', hfinal, hstate⟩ :=
    outerHash_spec { s₁ with innerHash := s₁.innerHash.store 0 s₁.sha1State.elems }
  refine ⟨s', ?_, ?_⟩
  · rw [sha1ResultHmac, hresult, Option.bind_some]
    exact hfinal
  · rw [hstate]
    dsimp only
    rw [hcopied, hkey, hblock, hinner]

end Hmac

section Truncation

/-- The counter of RFC 4226. -/
theorem byteArray_eq
    (steps : BitVec 32) :
    byteArray steps = wordBytes .big 8 steps.toNat := by
  have hlt := steps.isLt
  have hbyte : ∀ v : BitVec 32, BitVec.setWidth 8 (v &&& 0xff) = BitVec.ofNat 8 v.toNat := by
    intro v
    apply BitVec.eq_of_toNat_eq
    rw [BitVec.toNat_setWidth, BitVec.toNat_and, BitVec.toNat_ofNat]
    have hmask : (0xff : BitVec 32).toNat = 2 ^ 8 - 1 := rfl
    rw [hmask, Nat.and_two_pow_sub_one_eq_mod, Nat.mod_mod]
  have hshift : ∀ m, BitVec.setWidth 8 ((steps >>> m) &&& 0xff) =
      BitVec.ofNat 8 (steps.toNat / 2 ^ m) := by
    intro m
    rw [hbyte, BitVec.toNat_ushiftRight, Nat.shiftRight_eq_div_pow]
  have hhigh : ∀ k, 32 ≤ k → steps.toNat / 2 ^ k = 0 := by
    intro k hk
    have hpow : 2 ^ 32 ≤ 2 ^ k := Nat.pow_le_pow_right (by omega) hk
    exact Nat.div_eq_of_lt (by omega)
  rw [wordBytes_big_eight, hhigh 56 (by omega), hhigh 48 (by omega), hhigh 40 (by omega),
    hhigh 32 (by omega), byteArray, hshift, hshift, hshift, hbyte]
  rfl

/-- One more byte behind a number of at most three. -/
theorem toNat_shiftLeft_or
    {v : BitVec 32}
    (hv : v.toNat < 2 ^ 24)
    (x : BitVec 8) :
    ((v <<< 8) ||| BitVec.setWidth 32 x).toNat = v.toNat * 256 + x.toNat := by
  have hx := x.isLt
  have hshift : (v <<< 8).toNat = v.toNat <<< 8 := by
    rw [BitVec.toNat_shiftLeft, Nat.shiftLeft_eq]
    omega
  have hwide : (BitVec.setWidth 32 x).toNat = x.toNat := by
    rw [BitVec.toNat_setWidth]
    omega
  rw [BitVec.toNat_or, hshift, hwide, ← Nat.shiftLeft_add_eq_or_of_lt hx, Nat.shiftLeft_eq]

/-- The loop of the truncation reads a number with the highest byte first. -/
theorem truncateLoop_eq
    {hash : Octets} {offset : Nat}
    (hroom : offset + 4 ≤ hash.length)
    {j : Nat}
    (hj : j ≤ 4) :
    ∃ v, truncateLoop hash offset j = some v ∧
      v.toNat = wordValue .big (slice hash offset j) := by
  induction j with
  | zero =>
      exact ⟨0, rfl, rfl⟩
  | succ j ih =>
      obtain ⟨v, hloop, hv⟩ := ih (by omega)
      have hget : hash[offset + j]? = some (hash[offset + j]) := List.getElem?_eq_getElem (by omega)
      have hslice : slice hash offset (j + 1) = slice hash offset j ++ [hash[offset + j]] := by
        rw [slice, slice, List.take_add_one, List.getElem?_drop, hget]
        rfl
      have hlt : v.toNat < 2 ^ 24 := by
        have hbound := wordValue_lt .big (slice hash offset j)
        rw [length_slice (by omega), ← hv] at hbound
        have hpow : 256 ^ j ≤ 256 ^ 3 := Nat.pow_le_pow_right (by omega) (by omega)
        omega
      refine ⟨(v <<< 8) ||| BitVec.setWidth 32 hash[offset + j], ?_, ?_⟩
      · rw [truncateLoop, hloop, Option.bind_some, hget, Option.map_some]
      · rw [toNat_shiftLeft_or hlt, hslice, hv, wordValue, wordValue, List.reverse_concat,
          littleValue]
        omega

end Truncation

/-- A code for a number of steps. -/
theorem totpGetCodeFromSteps_spec
    (steps : BitVec 32)
    {s : TotpStatic}
    (hkey : s.keyLength.toNat = s.hmacKey.length) :
    ∃ code h, totpGetCodeFromSteps steps s = some (code, { s with sha1 := h }) ∧
      code.toNat = hotp s.hmacKey steps.toNat := by
  have hsmall : s.hmacKey.length < 256 := by
    rw [← hkey]
    exact s.keyLength.isLt
  obtain ⟨s₁, hinit, hbuffer, hwritten⟩ :=
    sha1InitHmac_spec (show s.hmacKey.length < 4294967296 by omega) s.sha1
  have hmessage := hwritten.writes (byteArray steps)
  obtain ⟨s₂, hresult, hhash⟩ := sha1ResultHmac_spec hmessage
    (by rw [(foldl_sha1Write_kept _ _).1]; exact hbuffer)
    (by rw [byteArray_eq, length_wordBytes]; decide)
  have hlength : s₂.sha1State.elems.length = 20 := s₂.sha1State.length_eq
  have hhmac : s₂.sha1State.elems = hmac sha1 64 s.hmacKey (wordBytes .big 8 steps.toNat) := by
    rw [hhash, byteArray_eq]
    rfl
  have hlast : s₂.sha1State.elems[19]? = some (s₂.sha1State.elems.getD 19 0) := by
    rw [List.getD_eq_getElem?_getD, List.getElem?_eq_getElem (by omega)]
    rfl
  have hoffset : ((s₂.sha1State.elems.getD 19 0) &&& 0xf).toNat =
      (s₂.sha1State.elems.getD 19 0).toNat % 16 :=
    (BitVec.toNat_and _ _).trans (Nat.and_two_pow_sub_one_eq_mod _ 4)
  have hinside : (s₂.sha1State.elems.getD 19 0).toNat % 16 + 4 ≤ s₂.sha1State.elems.length := by
    omega
  obtain ⟨v, hloop, hv⟩ := truncateLoop_eq hinside (Nat.le_refl 4)
  refine ⟨(v &&& 0x7fffffff) % 1000000, s₂, ?_, ?_⟩
  · rw [totpGetCodeFromSteps, hkey, hinit, Option.bind_some, sha1WriteArray, hresult,
      Option.bind_some]
    dsimp only
    rw [hlast, Option.bind_some, hoffset, hloop, Option.map_some]
  · have hmask : (v &&& 0x7fffffff).toNat = v.toNat % 2 ^ 31 :=
      (BitVec.toNat_and _ _).trans (Nat.and_two_pow_sub_one_eq_mod _ 31)
    rw [BitVec.toNat_umod, hmask, hv, hhmac]
    rfl

section Runs

variable {s s' : TotpStatic}

/-- A code changes only the variables of the hash. -/
theorem totpGetCodeFromSteps_kept
    {steps : BitVec 32} {code : BitVec 32}
    (h : totpGetCodeFromSteps steps s = some (code, s')) :
    s'.hmacKey = s.hmacKey ∧ s'.keyLength = s.keyLength := by
  obtain ⟨_, _, h⟩ := Option.bind_eq_some_iff.mp h
  obtain ⟨_, _, h⟩ := Option.bind_eq_some_iff.mp h
  obtain ⟨_, _, h⟩ := Option.bind_eq_some_iff.mp h
  obtain ⟨_, _, h⟩ := Option.map_eq_some_iff.mp h
  cases h
  exact ⟨rfl, rfl⟩

theorem totpGetCodeFromTimestamp_kept
    {timeStamp : BitVec 32} {code : BitVec 32}
    (h : totpGetCodeFromTimestamp timeStamp s = some (code, s')) :
    s'.hmacKey = s.hmacKey ∧ s'.keyLength = s.keyLength := by
  rw [totpGetCodeFromTimestamp] at h
  split at h
  · cases h
  · exact totpGetCodeFromSteps_kept h

/-- No call but the initialisation changes the key. -/
theorem totpStep_kept
    {c : TotpCall}
    (hc : c.isInit = false)
    (h : totpStep s c = some s') :
    s'.hmacKey = s.hmacKey ∧ s'.keyLength = s.keyLength := by
  cases c with
  | init hmacKey keyLength timeStep =>
      cases hc
  | setTimezone timezone =>
      cases h
      exact ⟨rfl, rfl⟩
  | getCodeFromSteps steps =>
      obtain ⟨⟨code, s''⟩, hcode, rfl⟩ := Option.map_eq_some_iff.mp h
      exact totpGetCodeFromSteps_kept hcode
  | getCodeFromTimestamp timeStamp =>
      obtain ⟨⟨code, s''⟩, hcode, rfl⟩ := Option.map_eq_some_iff.mp h
      exact totpGetCodeFromTimestamp_kept hcode
  | getCodeFromTimeStruct currentSec =>
      obtain ⟨⟨code, s''⟩, hcode, rfl⟩ := Option.map_eq_some_iff.mp h
      exact totpGetCodeFromTimestamp_kept hcode

theorem foldlM_totpStep_kept
    {calls : List TotpCall}
    (hcalls : ∀ c, c ∈ calls → c.isInit = false)
    (h : calls.foldlM totpStep s = some s') :
    s'.hmacKey = s.hmacKey ∧ s'.keyLength = s.keyLength := by
  induction calls generalizing s with
  | nil =>
      cases h
      exact ⟨rfl, rfl⟩
  | cons c calls ih =>
      rw [List.foldlM_cons] at h
      obtain ⟨s₁, hstep, hrest⟩ := Option.bind_eq_some_iff.mp h
      obtain ⟨hkey, hlen⟩ := totpStep_kept (hcalls c List.mem_cons_self) hstep
      obtain ⟨hkey', hlen'⟩ := ih (fun d hd => hcalls d (List.mem_cons_of_mem c hd)) hrest
      exact ⟨hkey'.trans hkey, hlen'.trans hlen⟩

end Runs

/--
For every key of at most 255 bytes, whatever the static variables hold before it is
set and whatever calls follow without setting another one: the code for a number
of steps is returned, it is the HOTP value of RFC 4226 of the key and the number
as a counter, and it has six digits.
-/
theorem code_eq_hotp
    (s : TotpStatic)
    {key : Octets}
    (hkey : key.length ≤ 255)
    (timeStep : BitVec 32)
    {calls : List TotpCall}
    (hcalls : ∀ c, c ∈ calls → c.isInit = false)
    {s' : TotpStatic}
    (hrun : calls.foldlM totpStep (totpInit key (BitVec.ofNat 8 key.length) timeStep s) = some s')
    (steps : BitVec 32) :
    ∃ code s'', totpGetCodeFromSteps steps s' = some (code, s'') ∧
      code.toNat = hotp key steps.toNat ∧ code.toNat < 1000000 := by
  obtain ⟨hset, hlen⟩ := foldlM_totpStep_kept hcalls hrun
  have hset' : s'.hmacKey = key := hset
  have hlen' : s'.keyLength.toNat = s'.hmacKey.length := by
    rw [hlen, hset']
    exact Nat.mod_eq_of_lt (by omega)
  obtain ⟨code, h, hcode, hvalue⟩ := totpGetCodeFromSteps_spec steps hlen'
  rw [hset'] at hvalue
  refine ⟨code, _, hcode, hvalue, ?_⟩
  rw [hvalue, hotp]
  exact Nat.mod_lt _ (by omega)

/-- The key of the client and its timezone, with the static variables clear before. -/
theorem clientKey_first_code :
    ∃ code s'',
      totpGetCodeFromSteps 0
          (totpSetTimezone 8
            (totpInit [0x4d, 0x79, 0x4c, 0x65, 0x67, 0x6f, 0x44, 0x6f, 0x6f, 0x72] 10 7200
              { hmacKey := [], keyLength := 0, timezone := 0, timeStep := 0, sha1 := clearSha1 })) =
        some (code, s'') ∧
      code.toNat = hotp [0x4d, 0x79, 0x4c, 0x65, 0x67, 0x6f, 0x44, 0x6f, 0x6f, 0x72] 0 ∧
      code.toNat < 1000000 :=
  @code_eq_hotp { hmacKey := [], keyLength := 0, timezone := 0, timeStep := 0, sha1 := clearSha1 }
    [0x4d, 0x79, 0x4c, 0x65, 0x67, 0x6f, 0x44, 0x6f, 0x6f, 0x72] (by decide) 7200
    [.setTimezone 8] (List.forall_mem_singleton.mpr rfl) _ rfl 0

end OneTimeCodes

end Poise

import Sdplane.Misc.ByteMem

/-!
# TLP headers

The macros and packed structures of `sdplane/tlp.h`. A header is a pointer into a buffer:
`b` is the buffer and `mh` (or `ch`, `th`) the offset the C pointer has in it. Fields of
more than one octet are loaded little-endian, as the x86 host does, and it is the
`ntohs`/`be32toh` of the code that turns them into wire order.
-/

namespace Sdplane

open ByteMem

/-! ## Byte order (`<arpa/inet.h>`, `<endian.h>`) -/

def ntohs (x : BitVec 16) : BitVec 16 := BitVec.ofNat 16 (byteSwap 2 x.toNat)
def htons (x : BitVec 16) : BitVec 16 := BitVec.ofNat 16 (byteSwap 2 x.toNat)
def be32toh (x : BitVec 32) : BitVec 32 := BitVec.ofNat 32 (byteSwap 4 x.toNat)
def htobe32 (x : BitVec 32) : BitVec 32 := BitVec.ofNat 32 (byteSwap 4 x.toNat)
def be64toh (x : BitVec 64) : BitVec 64 := BitVec.ofNat 64 (byteSwap 8 x.toNat)
def htobe64 (x : BitVec 64) : BitVec 64 := BitVec.ofNat 64 (byteSwap 8 x.toNat)

/-- A word that is swapped twice is itself, at any width of whole octets. -/
theorem ofNat_byteSwap_byteSwap {w : Nat} (n : Nat) (hw : 256 ^ n = 2 ^ w) (x : BitVec w) :
    BitVec.ofNat w (byteSwap n (BitVec.ofNat w (byteSwap n x.toNat)).toNat) = x := by
  have small := byteSwap_lt n x.toNat
  rw [hw] at small
  apply BitVec.eq_of_toNat_eq
  rw [BitVec.toNat_ofNat, BitVec.toNat_ofNat, Nat.mod_eq_of_lt small, byteSwap_byteSwap, hw,
    Nat.mod_mod, Nat.mod_eq_of_lt x.isLt]

@[simp] theorem ntohs_htons (x : BitVec 16) : ntohs (htons x) = x :=
  ofNat_byteSwap_byteSwap 2 (by norm_num) x

@[simp] theorem be32toh_htobe32 (x : BitVec 32) : be32toh (htobe32 x) = x :=
  ofNat_byteSwap_byteSwap 4 (by norm_num) x

@[simp] theorem be64toh_htobe64 (x : BitVec 64) : be64toh (htobe64 x) = x :=
  ofNat_byteSwap_byteSwap 8 (by norm_num) x

/-! ## TLP format and type (`tlp.h:34-64`) -/

def tlpFmtDwMask : Byte := 0x20
def tlpFmt3dw : Byte := 0x00
def tlpFmt4dw : Byte := 0x20

def tlpFmtDw (ft : Byte) : Byte := ft &&& tlpFmtDwMask
def tlpIs3dw (ft : Byte) : Bool := tlpFmtDw ft == tlpFmt3dw
def tlpFmtDataMask : Byte := 0x40
def tlpFmtWoData : Byte := 0x00
def tlpFmtWData : Byte := 0x40

def tlpFmtData (ft : Byte) : Byte := ft &&& tlpFmtDataMask
def tlpIsWoData (ft : Byte) : Bool := tlpFmtData ft == tlpFmtWoData
def tlpIsWData (ft : Byte) : Bool := tlpFmtData ft == tlpFmtWData

/-- The new value of `ft` after `tlp_set_fmt(ft, dw, wd)`. -/
def tlpSetFmt (ft dw wd : Byte) : Byte :=
  (ft &&& ~~~(tlpFmtDwMask ||| tlpFmtDataMask)) ||| (dw &&& tlpFmtDwMask) |||
    (wd &&& tlpFmtDataMask)

def tlpTypeMask : Byte := 0x1F
def tlpTypeMRd : Byte := 0x00
def tlpTypeMWr : Byte := 0x00
def tlpTypeCpl : Byte := 0x0A

def tlpType (ft : Byte) : Byte := ft &&& tlpTypeMask
def tlpIsMrd (ft : Byte) : Bool := tlpType ft == tlpTypeMRd && tlpIsWoData ft
def tlpIsMwr (ft : Byte) : Bool := tlpType ft == tlpTypeMWr && tlpIsWData ft
def tlpIsCpl (ft : Byte) : Bool := tlpType ft == tlpTypeCpl

/-- The new value of `ft` after `tlp_set_type(ft, v)`. -/
def tlpSetType (ft v : Byte) : Byte := (ft &&& ~~~tlpTypeMask) ||| (v &&& tlpTypeMask)

/-! ## TLP length (`tlp.h:102-105`) and completion status (`tlp.h:214-226`) -/

def tlpLengthMask : BitVec 16 := 0x03FF

def tlpLength (fl : BitVec 16) : BitVec 16 := ntohs fl &&& tlpLengthMask

/-- The new value of `fl` after `tlp_set_length(fl, v)`: `v` is not masked, so bits of it
    above the field spill into the reserved bits and the attributes. -/
def tlpSetLength (fl v : BitVec 16) : BitVec 16 := htons ((ntohs fl &&& ~~~tlpLengthMask) ||| v)

def tlpCplStatusMask : BitVec 16 := 0xE000
def tlpCplStatusSc : BitVec 16 := 0x0000

def tlpCplStatus (sc : BitVec 16) : BitVec 16 := ntohs sc &&& tlpCplStatusMask

/-- The new value of `sc` after `tlp_set_cpl_status(sc, v)`. -/
def tlpSetCplStatus (sc v : BitVec 16) : BitVec 16 :=
  htons ((ntohs sc &&& ~~~tlpCplStatusMask) ||| v)

def tlpCplBcntMask : BitVec 16 := 0x0FFF

def tlpCplBcnt (sc : BitVec 16) : BitVec 16 := ntohs sc &&& tlpCplBcntMask

/-- The new value of `sc` after `tlp_set_cpl_bcnt(sc, v)`. -/
def tlpSetCplBcnt (sc v : BitVec 16) : BitVec 16 := htons ((ntohs sc &&& ~~~tlpCplBcntMask) ||| v)

/-! ## The structures -/

/-- `sizeof (struct nettlp_hdr)`: sequence number and time stamp, packed. -/
def sizeofNettlpHdr : Nat := 6

/-- `sizeof (struct tlp_mr_hdr)`. -/
def sizeofTlpMrHdr : Nat := 8

/-- `sizeof (struct tlp_cpl_hdr)`. -/
def sizeofTlpCplHdr : Nat := 12

/-! `struct tlp_hdr` starts both the request and the completion header. -/

def hdrFmtType (b : ByteMem) (th : Nat) : Byte := b th
def hdrFalen (b : ByteMem) (th : Nat) : BitVec 16 := b.load16 (th + 2)

/-! `struct tlp_mr_hdr`: requester at 4, tag at 6, the two byte-enable fields in octet 7
(first DW in the low half on a little-endian host), then the address. -/

def mrRequester (b : ByteMem) (mh : Nat) : BitVec 16 := b.load16 (mh + 4)
def mrTag (b : ByteMem) (mh : Nat) : Byte := b (mh + 6)
def mrFstdw (b : ByteMem) (mh : Nat) : BitVec 4 := (b (mh + 7)).extractLsb' 0 4
def mrLstdw (b : ByteMem) (mh : Nat) : BitVec 4 := (b (mh + 7)).extractLsb' 4 4

def setMrFstdw (b : ByteMem) (mh : Nat) (v : BitVec 4) : ByteMem :=
  b.store8 (mh + 7) (mrLstdw b mh ++ v)

def setMrLstdw (b : ByteMem) (mh : Nat) (v : BitVec 4) : ByteMem :=
  b.store8 (mh + 7) (v ++ mrFstdw b mh)

/-! `struct tlp_cpl_hdr`: completer at 4, status and byte count at 6, requester at 8, tag
at 10, lower address at 11. -/

def cplCompleter (b : ByteMem) (ch : Nat) : BitVec 16 := b.load16 (ch + 4)
def cplStcnt (b : ByteMem) (ch : Nat) : BitVec 16 := b.load16 (ch + 6)
def cplRequester (b : ByteMem) (ch : Nat) : BitVec 16 := b.load16 (ch + 8)
def cplTag (b : ByteMem) (ch : Nat) : Byte := b (ch + 10)
def cplLowaddr (b : ByteMem) (ch : Nat) : Byte := b (ch + 11)

/-! ## Reading back what the setters store -/

/-- A field that is cleared under a mask and then or-ed with a value reads back as the part
    of the value under the mask. -/
theorem and_mask_of_set {w : Nat} (x v mask : BitVec w) :
    ((x &&& ~~~mask) ||| v) &&& mask = v &&& mask := by
  ext i hi
  simp only [BitVec.getElem_and, BitVec.getElem_or, BitVec.getElem_not]
  cases x[i] <;> cases v[i] <;> cases mask[i] <;> rfl

theorem toNat_tlpLength_tlpSetLength (fl v : BitVec 16) :
    (tlpLength (tlpSetLength fl v)).toNat = v.toNat % 1024 := by
  rw [tlpLength, tlpSetLength, ntohs_htons, and_mask_of_set, BitVec.toNat_and]
  exact Nat.and_two_pow_sub_one_eq_mod _ 10

theorem toNat_tlpCplBcnt_tlpSetCplBcnt (sc v : BitVec 16) :
    (tlpCplBcnt (tlpSetCplBcnt sc v)).toNat = v.toNat % 4096 := by
  rw [tlpCplBcnt, tlpSetCplBcnt, ntohs_htons, and_mask_of_set, BitVec.toNat_and]
  exact Nat.and_two_pow_sub_one_eq_mod _ 12

/-- Format and type as a memory write gets them. -/
theorem tlpFmtType_mwr (ft : Byte) :
    tlpIsMwr (tlpSetFmt (tlpSetType ft tlpTypeMWr) tlpFmt3dw tlpFmtWData) = true ∧
    tlpIs3dw (tlpSetFmt (tlpSetType ft tlpTypeMWr) tlpFmt3dw tlpFmtWData) = true ∧
    tlpIsMwr (tlpSetFmt (tlpSetType ft tlpTypeMWr) tlpFmt4dw tlpFmtWData) = true ∧
    tlpIs3dw (tlpSetFmt (tlpSetType ft tlpTypeMWr) tlpFmt4dw tlpFmtWData) = false := by
  revert ft
  decide +kernel

/-- Format and type as a completion with data gets them. -/
theorem tlpFmtType_cpl (ft : Byte) :
    tlpIs3dw (tlpSetType (tlpSetFmt ft tlpFmt3dw tlpFmtWData) tlpTypeCpl) = true ∧
    tlpIsWData (tlpSetType (tlpSetFmt ft tlpFmt3dw tlpFmtWData) tlpTypeCpl) = true ∧
    tlpIsCpl (tlpSetType (tlpSetFmt ft tlpFmt3dw tlpFmtWData) tlpTypeCpl) = true := by
  revert ft
  decide +kernel

/-- The length field is ten bits wide. -/
theorem tlpLength_lt (fl : BitVec 16) : (tlpLength fl).toNat < 1024 := by
  have h : (tlpLength fl).toNat = (ntohs fl).toNat % 2 ^ 10 := by
    rw [tlpLength, BitVec.toNat_and]
    exact Nat.and_two_pow_sub_one_eq_mod _ 10
  omega

@[simp] theorem mrFstdw_setMrFstdw (b : ByteMem) (mh : Nat) (v : BitVec 4) :
    mrFstdw (setMrFstdw b mh v) mh = v := by
  simp only [mrFstdw, setMrFstdw, store8_same]
  exact BitVec.extractLsb'_append_eq_right

@[simp] theorem mrLstdw_setMrFstdw (b : ByteMem) (mh : Nat) (v : BitVec 4) :
    mrLstdw (setMrFstdw b mh v) mh = mrLstdw b mh := by
  conv_lhs => rw [mrLstdw, setMrFstdw, store8_same]
  exact BitVec.extractLsb'_append_eq_left

@[simp] theorem mrLstdw_setMrLstdw (b : ByteMem) (mh : Nat) (v : BitVec 4) :
    mrLstdw (setMrLstdw b mh v) mh = v := by
  conv_lhs => rw [mrLstdw, setMrLstdw, store8_same]
  exact BitVec.extractLsb'_append_eq_left

end Sdplane

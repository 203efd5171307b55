/-
The modes of DES and triple DES in libsec, `desCBC.c`, `des3CBC.c`, `desECB.c` and `des3ECB.c`.

"Because of the way that non multiple of 8 buffers are handled, the decryptor must be fed buffers of
the same size as the encryptor." The bytes that a buffer has over are encrypted in both directions.
-/
import Plan9.Lib.Buffers
import Plan9.Libsec.Des

namespace Plan9.Libsec

def mask (a b : Vector Uchar 8) : Vector Uchar 8 := a.zipWith (· ^^^ ·) b

section
variable (cipher inverse : Vector Uchar 8 → Vector Uchar 8)

/-- A buffer; and the `ivec` that is left for the next. -/
def cbcEncrypt : Vector Uchar 8 → List Uchar → Vector Uchar 8 × List Uchar
  | ivec, a :: b :: c :: d :: e :: f :: g :: h :: p =>
    let text := cipher (mask #v[a, b, c, d, e, f, g, h] ivec)
    ((cbcEncrypt text p).1, text.toList ++ (cbcEncrypt text p).2)
  | ivec, [] => (ivec, [])
  | ivec, p => (cipher ivec, p.zipWith (· ^^^ ·) (cipher ivec).toList)

def cbcDecrypt : Vector Uchar 8 → List Uchar → Vector Uchar 8 × List Uchar
  | ivec, a :: b :: c :: d :: e :: f :: g :: h :: p =>
    let text := #v[a, b, c, d, e, f, g, h]
    ((cbcDecrypt text p).1, (mask (inverse text) ivec).toList ++ (cbcDecrypt text p).2)
  | ivec, [] => (ivec, [])
  | ivec, p => (cipher ivec, p.zipWith (· ^^^ ·) (cipher ivec).toList)

/-- The blocks by `inverse`, what is over by `cipher`. -/
def ecb : List Uchar → List Uchar
  | a :: b :: c :: d :: e :: f :: g :: h :: p => (inverse #v[a, b, c, d, e, f, g, h]).toList ++ ecb p
  | p => p.zipWith (· ^^^ ·) (cipher #v[0, 1, 2, 3, 4, 5, 6, 7]).toList
end

/-- `DESstate`, and `DES3state`, with one key schedule or three. -/
structure DESstate (K : Type) where
  expanded : K
  ivec : Vector Uchar 8

section
variable (spbox : Nat → U32int)

def desCBCencrypt (s : DESstate (Nat → U32int)) (p : List Uchar) : DESstate (Nat → U32int) × List Uchar :=
  let (ivec, p) := cbcEncrypt (block_cipher spbox s.expanded · false) s.ivec p
  ({ s with ivec }, p)

def desCBCdecrypt (s : DESstate (Nat → U32int)) (p : List Uchar) : DESstate (Nat → U32int) × List Uchar :=
  let (ivec, p) := cbcDecrypt (block_cipher spbox s.expanded · false) (block_cipher spbox s.expanded · true) s.ivec p
  ({ s with ivec }, p)

def des3CBCencrypt (s : DESstate (Nat → Nat → U32int)) (p : List Uchar) : DESstate (Nat → Nat → U32int) × List Uchar :=
  let (ivec, p) := cbcEncrypt (triple_block_cipher spbox s.expanded · 2) s.ivec p
  ({ s with ivec }, p)

def des3CBCdecrypt (s : DESstate (Nat → Nat → U32int)) (p : List Uchar) : DESstate (Nat → Nat → U32int) × List Uchar :=
  let (ivec, p) := cbcDecrypt (triple_block_cipher spbox s.expanded · 2) (triple_block_cipher spbox s.expanded · 5) s.ivec p
  ({ s with ivec }, p)

def desECBencrypt (s : DESstate (Nat → U32int)) : List Uchar → List Uchar :=
  ecb (block_cipher spbox s.expanded · false) (block_cipher spbox s.expanded · false)

def desECBdecrypt (s : DESstate (Nat → U32int)) : List Uchar → List Uchar :=
  ecb (block_cipher spbox s.expanded · false) (block_cipher spbox s.expanded · true)

def des3ECBencrypt (s : DESstate (Nat → Nat → U32int)) : List Uchar → List Uchar :=
  ecb (triple_block_cipher spbox s.expanded · 2) (triple_block_cipher spbox s.expanded · 2)

def des3ECBdecrypt (s : DESstate (Nat → Nat → U32int)) : List Uchar → List Uchar :=
  ecb (triple_block_cipher spbox s.expanded · 2) (triple_block_cipher spbox s.expanded · 5)
end

theorem mask_mask (a b : Vector Uchar 8) : mask (mask a b) b = a := by
  ext i hi
  simp [mask, BitVec.xor_assoc]

variable {cipher inverse : Vector Uchar 8 → Vector Uchar 8}

theorem cbcDecrypt_cbcEncrypt (hinv : ∀ text, inverse (cipher text) = text) (ivec : Vector Uchar 8) (p : List Uchar) :
    cbcDecrypt cipher inverse ivec (cbcEncrypt cipher ivec p).2 = ((cbcEncrypt cipher ivec p).1, p) := by
  induction ivec, p using cbcEncrypt.induct cipher with
  | case1 ivec a b c d e f g h p text ih =>
    simp only [cbcEncrypt, toList_eight, List.cons_append, List.nil_append, cbcDecrypt, eta]
    rw [ih, hinv, mask_mask]
    rfl
  | case2 ivec => rfl
  | case3 ivec p hlong hnil =>
    rcases p with _ | ⟨a, _ | ⟨b, _ | ⟨c, _ | ⟨d, _ | ⟨e, _ | ⟨f, _ | ⟨g, _ | ⟨h, p⟩⟩⟩⟩⟩⟩⟩⟩
    · exact absurd rfl hnil
    all_goals try simp [cbcEncrypt, cbcDecrypt, toList_eight, BitVec.xor_assoc]
    exact absurd rfl (hlong a b c d e f g h p)

theorem ecb_ecb (hinv : ∀ text, inverse (cipher text) = text) (p : List Uchar) : ecb cipher inverse (ecb cipher cipher p) = p := by
  induction p using ecb.induct with
  | case1 a b c d e f g h p ih =>
    simp only [ecb, toList_eight, List.cons_append, List.nil_append, eta]
    rw [ih, hinv]
    rfl
  | case2 p hlong =>
    rcases p with _ | ⟨a, _ | ⟨b, _ | ⟨c, _ | ⟨d, _ | ⟨e, _ | ⟨f, _ | ⟨g, _ | ⟨h, p⟩⟩⟩⟩⟩⟩⟩⟩
    all_goals try simp [ecb, toList_eight, BitVec.xor_assoc]
    exact absurd rfl (hlong a b c d e f g h p)

variable (spbox : Nat → U32int)

theorem des_undone (s : DESstate (Nat → U32int)) (text : Vector Uchar 8) :
    block_cipher spbox s.expanded (block_cipher spbox s.expanded text false) true = text := block_cipher_undone text true

theorem des3_undone (s : DESstate (Nat → Nat → U32int)) (text : Vector Uchar 8) :
    triple_block_cipher spbox s.expanded (triple_block_cipher spbox s.expanded text 2) 5 = text := triple_block_cipher_undone (by decide)

/-- **DES in CBC mode**: the buffers come back, fed to the decryptor as they were to the encryptor. -/
theorem desCBCdecrypt_desCBCencrypt (s : DESstate (Nat → U32int)) (ps : List (List Uchar)) :
    Buffers.run (desCBCdecrypt spbox) s (Buffers.run (desCBCencrypt spbox) s ps).2 =
      ((Buffers.run (desCBCencrypt spbox) s ps).1, ps) := by
  refine Buffers.run_inverse (fun s p => ?_) s ps
  rw [desCBCdecrypt, desCBCencrypt, cbcDecrypt_cbcEncrypt (des_undone spbox s)]

theorem des3CBCdecrypt_des3CBCencrypt (s : DESstate (Nat → Nat → U32int)) (ps : List (List Uchar)) :
    Buffers.run (des3CBCdecrypt spbox) s (Buffers.run (des3CBCencrypt spbox) s ps).2 =
      ((Buffers.run (des3CBCencrypt spbox) s ps).1, ps) := by
  refine Buffers.run_inverse (fun s p => ?_) s ps
  rw [des3CBCdecrypt, des3CBCencrypt, cbcDecrypt_cbcEncrypt (des3_undone spbox s)]

/-- **ECB mode**, of both. -/
theorem ECBdecrypt_ECBencrypt (s : DESstate (Nat → U32int)) (s3 : DESstate (Nat → Nat → U32int)) (p : List Uchar) :
    desECBdecrypt spbox s (desECBencrypt spbox s p) = p ∧ des3ECBdecrypt spbox s3 (des3ECBencrypt spbox s3 p) = p :=
  ⟨ecb_ecb (des_undone spbox s) p, ecb_ecb (des3_undone spbox s3) p⟩

end Plan9.Libsec

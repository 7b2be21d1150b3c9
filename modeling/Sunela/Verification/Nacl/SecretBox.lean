import Sunela.Verification.Dbcrypt.LifeCycle
import Sunela.Verification.Nacl.Stream

/-! # Boxes open where they have been made, and only those

What `crypto_secretbox_open` accepts is what `crypto_secretbox` makes, on machines with words of any
width. Records that are encrypted with these functions can be read again. -/

namespace Sunela.Tweetnacl

open Dbcrypt

variable {w w' : ℕ} {c m n k : Bytes}

/-! ## Comparing tags -/

theorem foldl_or_eq_zero (f : ℕ → U32 w) (n : ℕ) :
    (List.range n).foldl (fun d i => d ||| f i) 0 = 0 ↔ ∀ i < n, f i = 0 := by
  induction n with
  | zero => exact ⟨fun _ i hi => absurd hi (Nat.not_lt_zero i), fun _ => rfl⟩
  | succ n ih =>
      rw [List.range_succ, List.foldl_append, List.foldl_cons, List.foldl_nil]
      have hor := @BitVec.or_eq_zero_iff w ((List.range n).foldl (fun d i => d ||| f i) 0) (f n)
      refine hor.trans ((and_congr ih Iff.rfl).trans ?_)
      constructor
      · intro h i hi
        rcases Nat.lt_succ_iff_lt_or_eq.mp hi with hlt | rfl
        · exact h.1 i hlt
        · exact h.2
      · exact fun h => ⟨fun i hi => h i (Nat.lt_succ_of_lt hi), h n (Nat.lt_succ_self n)⟩

theorem foldl_or_lt (hw : 32 ≤ w) (f : ℕ → UInt8) (n : ℕ) :
    ((List.range n).foldl (fun d i => d ||| (ofU8 (f i) : U32 w)) 0).toNat < 2 ^ 8 := by
  induction n with
  | zero =>
      rw [List.range_zero, List.foldl_nil, toNat_zero]
      decide
  | succ n ih =>
      rw [List.range_succ, List.foldl_append, List.foldl_cons, List.foldl_nil, BitVec.toNat_or,
        toNat_ofU8 hw]
      exact Nat.or_lt_two_pow ih (f n).toNat_lt

theorem ofU8_eq_zero (hw : 32 ≤ w) (b : UInt8) : (ofU8 b : U32 w) = 0 ↔ b = 0 := by
  rw [← BitVec.toNat_inj, toNat_ofU8 hw, toNat_zero, ← UInt8.toNat_inj]
  rfl

/-- The bit that is made of a byte says whether it is zero. -/
theorem borrow_eq_zero (hw : 32 ≤ w) {d : U32 w} (hd : d.toNat < 2 ^ 8) :
    ((1 : U32 w) &&& (d - 1) >>> 8) - 1 = 0 ↔ d = 0 := by
  have hle := two_pow_le hw
  have hone : (1 : U32 w).toNat = 1 := toNat_lit hw (by decide)
  have hpow : 2 ^ w = 2 ^ 8 * (2 * 2 ^ (w - 9)) := by
    rw [← Nat.pow_succ', ← Nat.pow_add]
    congr 1
    omega
  have hand : ∀ x : U32 w, ((1 : U32 w) &&& x).toNat = x.toNat % 2 := by
    intro x
    rw [BitVec.toNat_and, hone, Nat.and_comm]
    exact Nat.and_two_pow_sub_one_eq_mod x.toNat 1
  have hbit : ((1 : U32 w) &&& (d - 1) >>> 8).toNat = if d.toNat = 0 then 1 else 0 := by
    rw [hand, toNat_shift, BitVec.toNat_sub, hone]
    split
    · next heq =>
        have hones : (2 ^ w - 1 + 0) % 2 ^ w = 2 ^ w - 1 := Nat.mod_eq_of_lt (by omega)
        rw [heq, hones]
        omega
    · next hne =>
        have hsub : (2 ^ w - 1 + d.toNat) % 2 ^ w = d.toNat - 1 := by
          rw [show 2 ^ w - 1 + d.toNat = (d.toNat - 1) + 2 ^ w by omega, Nat.add_mod_right,
            Nat.mod_eq_of_lt (by omega)]
        rw [hsub, Nat.div_eq_of_lt (by omega)]
  rw [sub_eq_zero, ← BitVec.toNat_inj, hbit, hone, ← BitVec.toNat_inj, toNat_zero]
  split
  · next heq => exact ⟨fun _ => heq, fun _ => rfl⟩
  · next hne => exact ⟨fun h => (by cases h), fun h => absurd h hne⟩

theorem cryptoVerify16_eq_zero (hw : 32 ≤ w) (x y : Bytes) :
    cryptoVerify16 w x y = 0 ↔ ∀ i < 16, byteAt x i = byteAt y i := by
  rw [cryptoVerify16, vn, borrow_eq_zero hw (foldl_or_lt hw _ 16), foldl_or_eq_zero]
  constructor
  · exact fun h i hi => UInt8.xor_eq_zero_iff.mp ((ofU8_eq_zero hw _).mp (h i hi))
  · exact fun h i hi => (ofU8_eq_zero hw _).mpr (UInt8.xor_eq_zero_iff.mpr (h i hi))

theorem byteAt_eq_take {x y : Bytes} {n : ℕ} (hx : n ≤ x.length) (hy : y.length = n) :
    (∀ i < n, byteAt x i = byteAt y i) ↔ x.take n = y := by
  constructor
  · intro h
    apply List.ext_getElem
    · rw [List.length_take, Nat.min_eq_left hx, hy]
    · intro i hi hi'
      have hbyte := h i (hy ▸ hi')
      rw [byteAt, byteAt, List.getD_eq_getElem _ _ (by omega),
        List.getD_eq_getElem _ _ hi'] at hbyte
      rw [List.getElem_take, hbyte]
  · rintro rfl i hi
    simp only [byteAt, List.getD_eq_getElem?_getD]
    rw [List.getElem?_take_of_lt hi]

/-! ## Tags and streams -/

/-- Only the first 32 bytes of a key count. -/
theorem cryptoOnetimeauth_congr (hw : 32 ≤ w) (hw' : 32 ≤ w') (m : Bytes) {k k' : Bytes}
    (hk : k.take 32 = k'.take 32) : cryptoOnetimeauth w m k = cryptoOnetimeauth w' m k' := by
  obtain ⟨hlen, htag⟩ := cryptoOnetimeauth_tag hw m k
  obtain ⟨hlen', htag'⟩ := cryptoOnetimeauth_tag hw' m k'
  have hfirst : k.take 16 = k'.take 16 := by
    have htake := congrArg (List.take 16) hk
    rwa [List.take_take, List.take_take] at htake
  have hsecond : (k.drop 16).take 16 = (k'.drop 16).take 16 := by
    have hdrop := congrArg (List.drop 16) hk
    rwa [List.drop_take, List.drop_take] at hdrop
  apply leNat_inj
  · rw [hlen, hlen']
  · rw [htag, htag', poly1305, poly1305, hfirst, hsecond]

/-- The key stream of a message. -/
def keyStream (n k : Bytes) (d : ℕ) : Bytes := (List.range d).map (streamByte n k)

@[simp] theorem keyStream_length (n k : Bytes) (d : ℕ) : (keyStream n k d).length = d := by
  rw [keyStream, List.length_map, List.length_range]

theorem keyStream_take (n k : Bytes) {d d' : ℕ} (h : d ≤ d') :
    (keyStream n k d').take d = keyStream n k d := by
  rw [keyStream, keyStream, ← List.map_take, List.take_range, Nat.min_eq_left h]

theorem cryptoStreamXor_zipWith (hw : 32 ≤ w) (m n k : Bytes) :
    cryptoStreamXor w m m.length n k = List.zipWith (· ^^^ ·) m (keyStream n k m.length) := by
  rw [cryptoStreamXor_eq hw]
  apply List.ext_getElem
  · rw [List.length_map, List.length_range, List.length_zipWith, keyStream_length, Nat.min_self]
  · intro i hi hi'
    rw [List.length_map, List.length_range] at hi
    rw [List.getElem_map, List.getElem_range, List.getElem_zipWith, byteAt,
      List.getD_eq_getElem _ _ hi]
    simp only [keyStream, List.getElem_map, List.getElem_range]

theorem zipWith_zeros (s : Bytes) : List.zipWith (· ^^^ ·) (zeros s.length) s = s := by
  induction s with
  | nil => rfl
  | cons b s ih =>
      have hzeros : zeros (b :: s).length = 0 :: zeros s.length := rfl
      rw [hzeros, List.zipWith_cons_cons, ih, UInt8.zero_xor]

/-! ## Boxes -/

/-- The parts of a message or of a box that have a key stream of their own. -/
structure Crossed (n k a b : Bytes) : Prop where
  length : a.length = b.length
  rest : a.drop 32 = (List.zipWith (· ^^^ ·) b (keyStream n k b.length)).drop 32

theorem Crossed.symm {a b : Bytes} (h : Crossed n k a b) : Crossed n k b a where
  length := h.length.symm
  rest := by
    have hlen : (b.drop 32).length = ((keyStream n k b.length).drop 32).length := by
      rw [List.length_drop, List.length_drop, keyStream_length]
    rw [List.drop_zipWith, h.rest, List.drop_zipWith, h.length, zipWith_xor_cancel hlen]

theorem length_of_zeros (hm : m.take 32 = zeros 32) : 32 ≤ m.length := by
  have htake := congrArg List.length hm
  rw [List.length_take, zeros_length] at htake
  omega

/-- What is made of a message that begins with zeros. -/
theorem cryptoSecretbox_eq_some (hw : 32 ≤ w) (hm : m.take 32 = zeros 32) :
    cryptoSecretbox w m n k = some c ↔
      c.take 16 = zeros 16 ∧
        (c.drop 16).take 16 = cryptoOnetimeauth w (c.drop 32) (keyStream n k 32) ∧
        Crossed n k c m := by
  have hlen := length_of_zeros hm
  have hstream := cryptoStreamXor_zipWith hw m n k
  have hkey : (List.zipWith (· ^^^ ·) m (keyStream n k m.length)).take 32 =
      (keyStream n k 32).take 32 := by
    have hfull : (keyStream n k 32).take 32 = keyStream n k 32 :=
      List.take_of_length_le (by rw [keyStream_length])
    have hzeros := zipWith_zeros (keyStream n k 32)
    rw [keyStream_length] at hzeros
    rw [List.take_zipWith, hm, keyStream_take n k hlen, hzeros, hfull]
  have htag : ∀ b, cryptoOnetimeauth w b (List.zipWith (· ^^^ ·) m (keyStream n k m.length)) =
      cryptoOnetimeauth w b (keyStream n k 32) := fun b => cryptoOnetimeauth_congr hw hw b hkey
  have htagLength : ∀ b, (cryptoOnetimeauth w b (keyStream n k 32)).length = 16 :=
    fun b => (cryptoOnetimeauth_tag hw b _).1
  rw [cryptoSecretbox, if_neg (by omega)]
  simp only [hstream, htag, Option.some.injEq]
  generalize hs : List.zipWith (· ^^^ ·) m (keyStream n k m.length) = s
  have hslen : s.length = m.length := by
    rw [← hs, List.length_zipWith, keyStream_length, Nat.min_self]
  constructor
  · rintro rfl
    have hfirst : (List.replicate 16 (0 : UInt8)).length = 16 := List.length_replicate
    have hhead : (List.replicate 16 0 ++
        cryptoOnetimeauth w (s.drop 32) (keyStream n k 32)).length = 32 := by
      rw [List.length_append, hfirst, htagLength]
    have hdrop : (List.replicate 16 0 ++ cryptoOnetimeauth w (s.drop 32) (keyStream n k 32) ++
        s.drop 32).drop 32 = s.drop 32 := List.drop_left' hhead
    refine ⟨?_, ?_, ?_, ?_⟩
    · rw [List.append_assoc]
      exact List.take_left' hfirst
    · rw [hdrop, List.append_assoc, List.drop_left' hfirst, List.take_left' (htagLength _)]
    · rw [List.length_append, hhead, List.length_drop, hslen]
      omega
    · rw [hdrop, hs]
  · rintro ⟨hzeros, hmid, hcrossed⟩
    have hrest : c.drop 32 = s.drop 32 := by rw [hcrossed.rest, hs]
    have hsplit : c = c.take 16 ++ (c.drop 16).take 16 ++ c.drop 32 := by
      have hdrop : c.drop 32 = (c.drop 16).drop 16 := by rw [List.drop_drop]
      rw [hdrop, List.append_assoc, List.take_append_drop, List.take_append_drop]
    rw [hsplit, hzeros, hmid, hrest]
    rfl

/-- What is accepted, and what comes out. -/
theorem cryptoSecretboxOpen_eq_some (hw : 32 ≤ w) :
    cryptoSecretboxOpen w c n k = some m ↔
      (c.drop 16).take 16 = cryptoOnetimeauth w (c.drop 32) (keyStream n k 32) ∧
        m.take 32 = zeros 32 ∧ Crossed n k m c := by
  have hstream : cryptoStream w 32 n k = keyStream n k 32 := cryptoStream_eq hw 32 n k
  have htagLength := (cryptoOnetimeauth_tag hw (c.drop 32) (keyStream n k 32)).1
  by_cases hlen : c.length < 32
  · rw [cryptoSecretboxOpen, if_pos hlen]
    refine ⟨fun h => (by cases h), fun h => ?_⟩
    have hm := length_of_zeros h.2.1
    have hcm := h.2.2.length
    omega
  · have hverify : cryptoOnetimeauthVerify w (c.drop 16) (c.drop 32) (cryptoStream w 32 n k) = 0 ↔
        (c.drop 16).take 16 = cryptoOnetimeauth w (c.drop 32) (keyStream n k 32) := by
      rw [cryptoOnetimeauthVerify, hstream, cryptoVerify16_eq_zero hw]
      exact byteAt_eq_take (by rw [List.length_drop]; omega) htagLength
    have hzeros : (List.replicate 32 (0 : UInt8)).length = 32 := List.length_replicate
    rw [cryptoSecretboxOpen, if_neg hlen, cryptoStreamXor_zipWith hw]
    by_cases htag : (c.drop 16).take 16 = cryptoOnetimeauth w (c.drop 32) (keyStream n k 32)
    · rw [if_neg (not_not.mpr (hverify.mpr htag)), Option.some.injEq]
      constructor
      · rintro rfl
        refine ⟨htag, List.take_left' hzeros, ?_, List.drop_left' hzeros⟩
        rw [List.length_append, hzeros, List.length_drop, List.length_zipWith, keyStream_length]
        omega
      · rintro ⟨-, hm, hcrossed⟩
        rw [← hcrossed.rest]
        exact (congrArg (· ++ m.drop 32) hm.symm).trans (List.take_append_drop 32 m)
    · rw [if_pos (fun h => htag (hverify.mp h))]
      exact ⟨fun h => (by cases h), fun h => absurd h.1 htag⟩

theorem cryptoSecretboxOpen_of_box (hw : 32 ≤ w) (hw' : 32 ≤ w') (hc : c.take 16 = zeros 16) :
    cryptoSecretboxOpen w c n k = some m ↔
      m.take 32 = zeros 32 ∧ cryptoSecretbox w' m n k = some c := by
  have htag : cryptoOnetimeauth w (c.drop 32) (keyStream n k 32) =
      cryptoOnetimeauth w' (c.drop 32) (keyStream n k 32) := cryptoOnetimeauth_congr hw hw' _ rfl
  rw [cryptoSecretboxOpen_eq_some hw]
  constructor
  · rintro ⟨hauth, hm, hcrossed⟩
    exact ⟨hm, (cryptoSecretbox_eq_some hw' hm).mpr ⟨hc, hauth.trans htag, hcrossed.symm⟩⟩
  · rintro ⟨hm, hbox⟩
    obtain ⟨-, hauth, hcrossed⟩ := (cryptoSecretbox_eq_some hw' hm).mp hbox
    exact ⟨hauth.trans htag.symm, hm, hcrossed.symm⟩

theorem cryptoSecretbox_length (hw : 32 ≤ w) (hm : 32 ≤ m.length)
    (h : cryptoSecretbox w m n k = some c) :
    c.length = m.length ∧ c.take 16 = zeros 16 := by
  have htag := (cryptoOnetimeauth_tag hw ((cryptoStreamXor w m m.length n k).drop 32)
    (cryptoStreamXor w m m.length n k)).1
  have hstream : (cryptoStreamXor w m m.length n k).length = m.length := by
    rw [cryptoStreamXor_eq hw, List.length_map, List.length_range]
  rw [cryptoSecretbox, if_neg (by omega)] at h
  obtain rfl := Option.some.inj h
  constructor
  · rw [List.length_append, List.length_append, List.length_replicate, htag, List.length_drop,
      hstream]
    omega
  · rw [List.append_assoc]
    exact List.take_left' List.length_replicate

theorem cryptoSecretbox_isSome (w : ℕ) (hm : 32 ≤ m.length) (n k : Bytes) :
    ∃ c, cryptoSecretbox w m n k = some c :=
  ⟨_, if_neg (by omega)⟩

/-- Every message has a box, which opens to it on any machine. What opens has been made of what
comes out. -/
theorem secretbox_exact (hw : 32 ≤ w) (hw' : 32 ≤ w') (n k : Bytes) :
    (∀ m : Bytes, m.take 32 = zeros 32 → ∃ c, cryptoSecretbox w m n k = some c ∧
      c.length = m.length ∧ c.take 16 = zeros 16 ∧ cryptoSecretboxOpen w' c n k = some m) ∧
    ∀ c m : Bytes, c.take 16 = zeros 16 → cryptoSecretboxOpen w' c n k = some m →
      m.take 32 = zeros 32 ∧ cryptoSecretbox w m n k = some c := by
  constructor
  · intro m hm
    obtain ⟨c, hc⟩ := cryptoSecretbox_isSome w (length_of_zeros hm) n k
    obtain ⟨hlen, hzeros⟩ := cryptoSecretbox_length hw (length_of_zeros hm) hc
    exact ⟨c, hc, hlen, hzeros, (cryptoSecretboxOpen_of_box hw' hw hzeros).mpr ⟨hm, hc⟩⟩
  · exact fun c m hc hopen => (cryptoSecretboxOpen_of_box hw' hw hc).mp hopen

theorem secretbox_exact_widths :
    ∃ c, cryptoSecretbox 32 (zeros 32 ++ asciiBytes "secret") (zeros 24) (zeros 32) = some c ∧
      cryptoSecretboxOpen 64 c (zeros 24) (zeros 32) = some (zeros 32 ++ asciiBytes "secret") := by
  obtain ⟨c, hc, -, -, hopen⟩ := (@secretbox_exact 32 64 (by decide) (by decide) (zeros 24)
    (zeros 32)).1 (zeros 32 ++ asciiBytes "secret") (by decide)
  exact ⟨c, hc, hopen⟩

/-! ## Encrypted records -/

def basePoint : Bytes := 9 :: List.replicate 31 0

/-- Multiplication on the curve, as far as keys depend on it. -/
structure Scalarmult where
  cryptoScalarmult : (n p : Bytes) → Bytes
  length : ∀ n p, (cryptoScalarmult n p).length = cryptoBoxPublickeybytes
  symm : ∀ a b, cryptoScalarmult a (cryptoScalarmult b basePoint) =
    cryptoScalarmult b (cryptoScalarmult a basePoint)

/-- The functions of `tweetnacl.c` are what the encryption of records relies on. -/
def nacl (w : ℕ) (hw : 32 ≤ w) (curve : Scalarmult) : Nacl where
  cryptoScalarmultBase sk := curve.cryptoScalarmult sk basePoint
  cryptoBoxBeforenm pk sk := cryptoBoxBeforenm w curve.cryptoScalarmult pk sk
  cryptoStream d n k := cryptoStream w d n k
  cryptoSecretbox m n k := (cryptoSecretbox w m n k).getD []
  cryptoSecretboxOpen c n k := cryptoSecretboxOpen w c n k
  publickey_length sk := curve.length sk basePoint
  beforenm_symm a b := by rw [cryptoBoxBeforenm, cryptoBoxBeforenm, curve.symm]
  stream_length d n k := by rw [cryptoStream_eq hw, List.length_map, List.length_range]
  secretbox_length m n k hm := by
    obtain ⟨c, hc⟩ := cryptoSecretbox_isSome w hm n k
    rw [hc]
    exact (cryptoSecretbox_length hw hm hc).1
  secretbox_zeros m n k hm := by
    obtain ⟨c, hc⟩ := cryptoSecretbox_isSome w hm n k
    rw [hc]
    exact (cryptoSecretbox_length hw hm hc).2
  open_length c n k m hopen := ((cryptoSecretboxOpen_eq_some hw).mp hopen).2.2.length

theorem nacl_opens (hw : 32 ≤ w) (curve : Scalarmult) : (nacl w hw curve).Opens := by
  intro m n k hm
  obtain ⟨c, hc⟩ := cryptoSecretbox_isSome w (length_of_zeros hm) n k
  have hzeros := (cryptoSecretbox_length hw (length_of_zeros hm) hc).2
  change cryptoSecretboxOpen w ((cryptoSecretbox w m n k).getD []) n k = some m
  rw [hc]
  exact (cryptoSecretboxOpen_of_box hw hw hzeros).mpr ⟨hm, hc⟩

theorem cryptoSecretbox_width (hw : 32 ≤ w) (hw' : 32 ≤ w') (m n k : Bytes) :
    cryptoSecretbox w m n k = cryptoSecretbox w' m n k := by
  have hstream : cryptoStreamXor w m m.length n k = cryptoStreamXor w' m m.length n k := by
    rw [cryptoStreamXor_eq hw, cryptoStreamXor_eq hw']
  rw [cryptoSecretbox, cryptoSecretbox, hstream]
  simp only [cryptoOnetimeauth_congr hw hw' _ rfl]

theorem cryptoSecretboxOpen_width (hw : 32 ≤ w) (hw' : 32 ≤ w') (c n k : Bytes) :
    cryptoSecretboxOpen w c n k = cryptoSecretboxOpen w' c n k := by
  apply Option.ext
  intro m
  have htag := cryptoOnetimeauth_congr hw hw' (c.drop 32) (k := keyStream n k 32) rfl
  have hiff := @cryptoSecretboxOpen_eq_some w c m n k hw
  have hiff' := @cryptoSecretboxOpen_eq_some w' c m n k hw'
  rw [htag] at hiff
  exact hiff.trans hiff'.symm

/-- The width of words makes no difference. -/
theorem nacl_width (hw : 32 ≤ w) (hw' : 32 ≤ w') (curve : Scalarmult) :
    nacl w hw curve = nacl w' hw' curve := by
  have hbefore : (fun pk sk => cryptoBoxBeforenm w curve.cryptoScalarmult pk sk) =
      fun pk sk => cryptoBoxBeforenm w' curve.cryptoScalarmult pk sk := by
    funext pk sk
    rw [cryptoBoxBeforenm, cryptoBoxBeforenm, cryptoCoreHsalsa20_eq hw, cryptoCoreHsalsa20_eq hw']
  have hstream : (fun d n k => cryptoStream w d n k) = fun d n k => cryptoStream w' d n k := by
    funext d n k
    rw [cryptoStream_eq hw, cryptoStream_eq hw']
  have hbox : (fun m n k => (cryptoSecretbox w m n k).getD []) =
      fun m n k => (cryptoSecretbox w' m n k).getD [] := by
    funext m n k
    rw [cryptoSecretbox_width hw hw']
  have hopen : (fun c n k => cryptoSecretboxOpen w c n k) =
      fun c n k => cryptoSecretboxOpen w' c n k := by
    funext c n k
    rw [cryptoSecretboxOpen_width hw hw']
  rw [nacl, nacl]
  congr

/-- What fits a record is encrypted, and decrypted with the key of its writer on any machine. -/
theorem dbDecrypt_nacl (hw : 32 ≤ w) (hw' : 32 ≤ w') (curve : Scalarmult)
    {sk content nonce rk : Bytes} (hfit : content.length ≤ boxSize 1)
    (hn : nonce.length = cryptoSecretboxNoncebytes) (hk : rk.length = cryptoSecretboxKeybytes) :
    ∃ block, dbEncrypt (dbcryptInit (nacl w hw curve) sk) content nonce rk = some block ∧
      block.length = Storage.storageBlockSize ∧
      dbDecrypt (nacl w' hw' curve) sk Storage.storageBlockSize block =
        some (some (boxContent 1 content)) := by
  obtain ⟨block, hblock⟩ := @dbEncrypt_init (nacl w hw curve) content sk hfit nonce rk
  have hencrypted := dbEncrypt_encrypted hblock
  refine ⟨block, hblock, hencrypted.block_length hn hk, ?_⟩
  rw [← nacl_width hw hw']
  exact hencrypted.dbDecrypt_init (nacl_opens hw curve) hn hk

theorem zipWith_xor_left_comm (a b c : Bytes) :
    List.zipWith (· ^^^ ·) a (List.zipWith (· ^^^ ·) b c) =
      List.zipWith (· ^^^ ·) b (List.zipWith (· ^^^ ·) a c) := by
  induction a generalizing b c with
  | nil => cases b <;> simp
  | cons x a ih =>
      cases b with
      | nil => simp
      | cons y b =>
          cases c with
          | nil => simp
          | cons z c =>
              simp only [List.zipWith_cons_cons, ih, ← UInt8.xor_assoc, UInt8.xor_comm x]

def padded (x : Bytes) : Bytes := (x ++ zeros 32).take 32

theorem padded_length (x : Bytes) : (padded x).length = 32 := by
  rw [padded, List.length_take, List.length_append, zeros_length]
  omega

/-- A commutative operation instead of the curve. -/
def sumCurve : Scalarmult where
  cryptoScalarmult n p := List.zipWith (· ^^^ ·) (padded n) (padded p)
  length n p := by
    rw [List.length_zipWith, padded_length, padded_length]
    rfl
  symm a b := by
    have hsum : ∀ x y, padded (List.zipWith (· ^^^ ·) (padded x) (padded y)) =
        List.zipWith (· ^^^ ·) (padded x) (padded y) := by
      intro x y
      have hlen : (List.zipWith (· ^^^ ·) (padded x) (padded y)).length = 32 := by
        rw [List.length_zipWith, padded_length, padded_length, Nat.min_self]
      exact List.take_left' hlen
    rw [hsum, hsum]
    exact zipWith_xor_left_comm _ _ _

theorem dbDecrypt_nacl_widths :
    ∃ block, dbEncrypt (dbcryptInit (nacl 32 (by decide) sumCurve) (List.replicate 32 8))
        [1, 2, 3] (zeros 24) (List.replicate 32 7) = some block ∧
      block.length = Storage.storageBlockSize ∧
      dbDecrypt (nacl 64 (by decide) sumCurve) (List.replicate 32 8) Storage.storageBlockSize
        block = some (some (boxContent 1 [1, 2, 3])) :=
  dbDecrypt_nacl (by decide) (by decide) sumCurve (by decide) (by decide) (by decide)

end Sunela.Tweetnacl

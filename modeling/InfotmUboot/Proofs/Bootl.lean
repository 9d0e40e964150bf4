import InfotmUboot.Bootl

/-!
# The image that is loaded

`load_image` compares what its second read returns as unsigned, so a read that fails passes. It also
leaves the header it has checked behind where it puts the image elsewhere.
-/

namespace InfotmUboot

open Lib

/-- The current device: what is stored on it, what `vs_read` returns, and whether it gets all it
asked the driver for. A read of whole blocks returns no more than it got; one with parts of blocks
at its ends counts these as whole ones. -/
structure BootStorage where
  disk : Mem
  ret : ℕ → ℤ → ℤ
  full : ℕ → ℤ → Bool
  ret_range : ∀ o len, -2 ^ 31 ≤ ret o len ∧ ret o len < 2 ^ 31
  full_ret : ∀ o len, full o len = true → 0 ≤ len → len ≤ ret o len
  header_full : ∀ o, 0x1000 ≤ ret o 0x1000 → full o 0x1000 = true

namespace BootStorage

variable (S : BootStorage)

/-- What a read that gets all leaves in the buffer is what is stored; of another nothing is
known. -/
def Delivers (data : ℕ → ℤ → List UInt8) : Prop :=
  ∀ o len, S.full o len = true → 0 ≤ len → ∃ rest, data o len = S.disk.load o len.toNat ++ rest

def header (o : ℕ) : List UInt8 := S.disk.load o imageHeaderSize

/-- The length of the image at `o`. -/
def imageLen (o : ℕ) : ℕ := imageGetSize (S.header o) + imageHeaderSize

/-- What the second read asks for. -/
def asked (o : ℕ) : ℤ := s32 (u32 (S.imageLen o) : ℕ)

/-- The image at `o` is intact and can be read. -/
structure Usable (o : ℕ) : Prop where
  head : 0x1000 ≤ S.ret o 0x1000
  intact : imageCheckHcrc (S.header o) = true
  len : S.imageLen o < 2 ^ 31
  body : S.full o (S.imageLen o) = true

end BootStorage

/-- An image that was loaded is complete, in the buffer of the header that was checked; the first
image is preferred if it is usable, and if neither is loaded neither is usable. -/
structure LoadImageRight (S : BootStorage) (offs : List UInt8 → ℕ) (name : List UInt8)
    (alternate : Option (List UInt8)) : Prop where
  sound : ∀ data, S.Delivers data → ∀ rambase m img m',
    loadImage offs (fun o len => (S.ret o len, data o len)) rambase name alternate m =
      (some img, m') →
      (img.image = offs name ∨ ∃ alt ∈ alternate, img.image = offs alt) ∧
      img.checked = some img.dst ∧ imageCheckHcrc (S.header img.image) = true ∧
      m'.load img.dst (S.imageLen img.image) = S.disk.load img.image (S.imageLen img.image)
  prefers : ∀ data, S.Delivers data → ∀ rambase m, S.Usable (offs name) → ∃ img m',
    loadImage offs (fun o len => (S.ret o len, data o len)) rambase name alternate m =
      (some img, m') ∧
      img.image = offs name
  null : ∀ data, S.Delivers data → ∀ rambase m m',
    loadImage offs (fun o len => (S.ret o len, data o len)) rambase name alternate m = (none, m') →
      ¬S.Usable (offs name) ∧ ∀ alt ∈ alternate, ¬S.Usable (offs alt)

/-- Of an image with a good header the second read is only taken for complete where it is, and the
image is not marked as compressed. -/
def BootStorage.Trusted (S : BootStorage) (o : ℕ) : Prop :=
  0x1000 ≤ S.ret o 0x1000 → imageCheckHcrc (S.header o) = true →
    u32 (S.imageLen o) ≤ toU32 (S.ret o (S.asked o)) →
      imageGetComp (S.header o) ≠ 1 ∧ S.imageLen o < 2 ^ 31 ∧ S.full o (S.imageLen o) = true

section Try

variable {S : BootStorage} {offs : List UInt8 → ℕ} {data : ℕ → ℤ → List UInt8} {rambase : ℕ}
  {name : List UInt8} {m : Mem}

/-- Where the image goes. -/
def BootStorage.dst (S : BootStorage) (o rambase : ℕ) : ℕ :=
  rambase + if imageGetComp (S.header o) = 1 then 0x6000000 else 0

theorem load_store_prefix (m : Mem) (a : ℕ) (bs rest : List UInt8) {n : ℕ} (h : n ≤ bs.length) :
    (m.store a (bs ++ rest)).load a n = bs.take n := by
  have hle : n ≤ (bs ++ rest).length := by
    rw [List.length_append]
    omega
  rw [← Mem.take_load _ _ hle, Mem.load_store_same, List.take_append_of_le_length h]

theorem load_head (hd : S.Delivers data) {o : ℕ} (hr : 0x1000 ≤ S.ret o 0x1000) :
    (m.store rambase (data o 0x1000)).load rambase imageHeaderSize = S.header o := by
  obtain ⟨rest, hrest⟩ := hd o 0x1000 (S.header_full o hr) (by norm_num)
  rw [hrest, load_store_prefix _ _ _ _ (by rw [Mem.length_load]; decide)]
  exact Mem.take_load _ _ (by decide)

/-- What a round does with an image that is not the logo. -/
theorem loadImageTry_eq (hd : S.Delivers data) (hl : name ≠ ascii "logo") :
    loadImageTry offs (fun o len => (S.ret o len, data o len)) rambase name m =
      if 0x1000 ≤ S.ret (offs name) 0x1000 then
        if imageCheckHcrc (S.header (offs name)) = true then
          if u32 (S.imageLen (offs name)) ≤ toU32 (S.ret (offs name) (S.asked (offs name))) then
            (some ⟨S.dst (offs name) rambase, offs name, some rambase⟩,
              (m.store rambase (data (offs name) 0x1000)).store (S.dst (offs name) rambase)
                (data (offs name) (S.asked (offs name))))
          else
            (none, (m.store rambase (data (offs name) 0x1000)).store (S.dst (offs name) rambase)
              (data (offs name) (S.asked (offs name))))
        else (none, m.store rambase (data (offs name) 0x1000))
      else (none, m.store rambase (data (offs name) 0x1000)) := by
  unfold loadImageTry
  rw [if_neg hl]
  dsimp only
  by_cases hr : 0x1000 ≤ S.ret (offs name) 0x1000
  · rw [if_neg (by omega), if_pos hr, load_head hd hr]
    by_cases hc : imageCheckHcrc (S.header (offs name)) = true
    · rw [if_pos hc, if_pos hc]
      by_cases ha : u32 (S.imageLen (offs name)) ≤ toU32 (S.ret (offs name) (S.asked (offs name)))
      · rw [if_pos ha]
        exact if_neg (Nat.not_lt.2 ha)
      · rw [if_neg ha]
        exact if_pos (Nat.lt_of_not_le ha)
    · rw [if_neg hc, if_neg hc]
  · rw [if_pos (by omega), if_neg hr]

/-- A usable image is taken. -/
theorem BootStorage.Usable.taken {o : ℕ} (hu : S.Usable o) :
    u32 (S.imageLen o) ≤ toU32 (S.ret o (S.asked o)) := by
  have hlen := hu.len
  have hask : S.asked o = S.imageLen o := by
    unfold BootStorage.asked
    rw [u32_of_lt (by omega), s32_of_range (by omega) (by omega)]
  have hret := S.full_ret o _ hu.body (by omega)
  have hrange := S.ret_range o (S.imageLen o)
  rw [hask, u32_of_lt (by omega)]
  unfold toU32
  omega

/-- Of an image that can be trusted the round is right. -/
theorem loadImageTry_trusted (hd : S.Delivers data) (hl : name ≠ ascii "logo")
    (ht : S.Trusted (offs name)) :
    (S.Usable (offs name) ∧ ∃ img m',
      loadImageTry offs (fun o len => (S.ret o len, data o len)) rambase name m = (some img, m') ∧
        img.image = offs name ∧ img.checked = some img.dst ∧
        m'.load img.dst (S.imageLen (offs name)) =
          S.disk.load (offs name) (S.imageLen (offs name))) ∨
    (¬S.Usable (offs name) ∧ ∃ m',
      loadImageTry offs (fun o len => (S.ret o len, data o len)) rambase name m = (none, m')) := by
  rw [loadImageTry_eq hd hl]
  by_cases hr : 0x1000 ≤ S.ret (offs name) 0x1000
  · rw [if_pos hr]
    by_cases hc : imageCheckHcrc (S.header (offs name)) = true
    · rw [if_pos hc]
      by_cases ha : u32 (S.imageLen (offs name)) ≤ toU32 (S.ret (offs name) (S.asked (offs name)))
      · obtain ⟨hcomp, hlen, hfull⟩ := ht hr hc ha
        rw [if_pos ha]
        refine Or.inl ⟨⟨hr, hc, hlen, hfull⟩, _, _, rfl, rfl, ?_, ?_⟩
        · have hdst : S.dst (offs name) rambase = rambase := by
            unfold BootStorage.dst
            rw [if_neg hcomp]
            rfl
          exact congrArg some hdst.symm
        · have hask : S.asked (offs name) = S.imageLen (offs name) := by
            unfold BootStorage.asked
            rw [u32_of_lt (by omega), s32_of_range (by omega) (by omega)]
          obtain ⟨rest, hrest⟩ := hd _ _ hfull (by omega)
          rw [Int.toNat_natCast] at hrest
          dsimp only
          rw [hask, hrest, load_store_prefix _ _ _ _ (by rw [Mem.length_load]),
            List.take_of_length_le (by rw [Mem.length_load])]
      · rw [if_neg ha]
        exact Or.inr ⟨fun hu => ha hu.taken, _, rfl⟩
    · rw [if_neg hc]
      exact Or.inr ⟨fun hu => hc hu.intact, _, rfl⟩
  · rw [if_neg hr]
    exact Or.inr ⟨fun hu => hr hu.head, _, rfl⟩

end Try

section Spoil

variable {S : BootStorage} {offs : List UInt8 → ℕ} {name : List UInt8} {m : Mem}

/-- Reads that get all leave what is stored, and all others a wrong byte. -/
def spoil (S : BootStorage) (o : ℕ) (len : ℤ) : List UInt8 :=
  if S.full o len = true ∧ 0 ≤ len then S.disk.load o len.toNat else [S.disk o + 1]

theorem delivers_spoil (S : BootStorage) : S.Delivers (spoil S) := fun o len hf hlen =>
  ⟨[], by rw [spoil, if_pos ⟨hf, hlen⟩, List.append_nil]⟩

theorem add_one_ne (b : UInt8) : b + 1 ≠ b := fun h => by
  have h1 := congrArg UInt8.toNat h
  have hlt := b.toNat_lt
  rw [UInt8.toNat_add, show (1 : UInt8).toNat = 1 from rfl] at h1
  omega

theorem load_byte {m' : Mem} {a b n k : ℕ} (h : m.load a n = m'.load b n) (hk : k < n) :
    m (a + k) = m' (b + k) := by
  have h1 : (m.load a n)[k]? = some (m (a + k)) := by
    rw [List.getElem?_eq_getElem (by rwa [Mem.length_load]), Mem.getElem_load]
  have h2 : (m'.load b n)[k]? = some (m' (b + k)) := by
    rw [List.getElem?_eq_getElem (by rwa [Mem.length_load]), Mem.getElem_load]
  rw [h] at h1
  exact Option.some.inj (h1.symm.trans h2)

/-- An image that cannot be trusted is loaded all the same, and what was loaded is wrong. -/
theorem loadImageTry_bad (ht : ¬S.Trusted (offs name)) (hl : name ≠ ascii "logo")
    (hm : m 0x1000 = S.disk (offs name + 0x1000) + 1) : ∃ img m',
      loadImageTry offs (fun o len => (S.ret o len, spoil S o len)) 0 name m = (some img, m') ∧
        img.image = offs name ∧ ¬(img.checked = some img.dst ∧
          m'.load img.dst (S.imageLen (offs name)) =
            S.disk.load (offs name) (S.imageLen (offs name))) := by
  unfold BootStorage.Trusted at ht
  simp only [not_forall] at ht
  obtain ⟨hr, hc, ha, hbad⟩ := ht
  rw [loadImageTry_eq (delivers_spoil S) hl, if_pos hr, if_pos hc, if_pos ha]
  refine ⟨_, _, rfl, rfl, fun ⟨hdst, hload⟩ => ?_⟩
  have hcomp : imageGetComp (S.header (offs name)) ≠ 1 := fun h1 => by
    have hz := Option.some.inj hdst
    unfold BootStorage.dst at hz
    rw [if_pos h1] at hz
    exact absurd hz (by norm_num)
  have hz : S.dst (offs name) 0 = 0 := by
    unfold BootStorage.dst
    rw [if_neg hcomp]
  dsimp only at hload
  rw [hz] at hload
  have hlen : 64 ≤ S.imageLen (offs name) := Nat.le_add_left _ _
  have hlt : S.imageLen (offs name) < 2 ^ 32 + 64 :=
    Nat.add_lt_add_right (uimageToCpu_lt (S.header (offs name)) 12) 64
  by_cases hf : S.full (offs name) (S.asked (offs name)) = true ∧ 0 ≤ S.asked (offs name)
  · -- a small number is left of the length, so all behind the header is as it was
    have hbig : 2 ^ 32 ≤ S.imageLen (offs name) := by
      by_contra hsmall
      have hask : S.asked (offs name) = S.imageLen (offs name) ∧ S.imageLen (offs name) <
        2 ^ 31 := by
        have h0 := hf.2
        unfold BootStorage.asked at h0 ⊢
        rw [u32_of_lt (by omega)] at h0 ⊢
        unfold s32 at h0 ⊢
        rw [Int.bmod_def] at h0 ⊢
        split_ifs at h0 ⊢ <;> omega
      exact hbad ⟨hcomp, hask.2, hask.1 ▸ hf.1⟩
    have hask : S.asked (offs name) = (S.imageLen (offs name) - 2 ^ 32 : ℕ) := by
      have hu : u32 (S.imageLen (offs name)) = S.imageLen (offs name) - 2 ^ 32 := by
        unfold u32
        omega
      unfold BootStorage.asked
      rw [hu, s32_of_range (by omega) (by omega)]
    have hsp : (spoil S (offs name) (S.asked (offs name))).length < 64 := by
      rw [spoil, if_pos hf, Mem.length_load, hask, Int.toNat_natCast]
      omega
    have hsp0 : (spoil S (offs name) 0x1000).length ≤ 0x1000 := by
      unfold spoil
      split_ifs
      · rw [Mem.length_load]
        rfl
      · exact Nat.succ_le_of_lt (by norm_num)
    have hbyte := load_byte hload (show 0x1000 < S.imageLen (offs name) by omega)
    rw [Nat.zero_add, Mem.store_of_ge _ _ (by omega), Mem.store_of_ge _ _ (by omega), hm] at hbyte
    exact add_one_ne _ hbyte
  · have hsp : spoil S (offs name) (S.asked (offs name)) = [S.disk (offs name) + 1] := by
      rw [spoil, if_neg hf]
    have hbyte := load_byte hload (show 0 < S.imageLen (offs name) by omega)
    rw [hsp] at hbyte
    exact add_one_ne _ hbyte

/-- A round that loads nothing leaves that byte alone. -/
theorem loadImageTry_rejected (hl : name ≠ ascii "logo") {m' : Mem}
    (h : loadImageTry offs (fun o len => (S.ret o len, spoil S o len)) 0 name m = (none, m')) :
    m' 0x1000 = m 0x1000 := by
  have hsp0 : (spoil S (offs name) 0x1000).length ≤ 0x1000 := by
    unfold spoil
    split_ifs
    · rw [Mem.length_load]
      rfl
    · exact Nat.succ_le_of_lt (by norm_num)
  rw [loadImageTry_eq (delivers_spoil S) hl] at h
  by_cases hr : 0x1000 ≤ S.ret (offs name) 0x1000
  swap
  · rw [if_neg hr] at h
    rw [← (Prod.mk.inj h).2, Mem.store_of_ge _ _ (by omega)]
  by_cases hc : imageCheckHcrc (S.header (offs name)) = true
  swap
  · rw [if_pos hr, if_neg hc] at h
    rw [← (Prod.mk.inj h).2, Mem.store_of_ge _ _ (by omega)]
  by_cases ha : u32 (S.imageLen (offs name)) ≤ toU32 (S.ret (offs name) (S.asked (offs name)))
  · rw [if_pos hr, if_pos hc, if_pos ha] at h
    exact absurd (Prod.mk.inj h).1 nofun
  · rw [if_pos hr, if_pos hc, if_neg ha] at h
    rw [← (Prod.mk.inj h).2]
    have hnot : ¬(S.full (offs name) (S.asked (offs name)) = true ∧ 0 ≤ S.asked (offs name)) := by
      rintro ⟨hf, h0⟩
      have hret := S.full_ret _ _ hf h0
      have hrange := S.ret_range (offs name) (S.asked (offs name))
      have hask : S.asked (offs name) = u32 (S.imageLen (offs name)) := by
        have hlt := u32_lt (S.imageLen (offs name))
        unfold BootStorage.asked at h0 ⊢
        unfold s32 at h0 ⊢
        rw [Int.bmod_def] at h0 ⊢
        split_ifs at h0 ⊢ <;> omega
      refine ha ?_
      unfold toU32
      omega
    have hsp : spoil S (offs name) (S.asked (offs name)) = [S.disk (offs name) + 1] := by
      rw [spoil, if_neg hnot]
    rw [hsp]
    have hdst : S.dst (offs name) 0 = 0 ∨ S.dst (offs name) 0 = 0x6000000 := by
      unfold BootStorage.dst
      split_ifs
      · exact Or.inr rfl
      · exact Or.inl rfl
    rcases hdst with hdst | hdst
    · rw [hdst, Mem.store_of_ge _ _ (by norm_num), Mem.store_of_ge _ _ (by omega)]
    · rw [hdst, Mem.store_of_lt _ _ (by norm_num), Mem.store_of_ge _ _ (by omega)]

end Spoil

section Right

variable {S : BootStorage} {offs : List UInt8 → ℕ} {name : List UInt8}
  {alternate : Option (List UInt8)}

theorem loadImageTry_logo (vsRead : ℕ → ℤ → ℤ × List UInt8) (rambase : ℕ) (m : Mem) :
    ∃ m', loadImageTry offs vsRead rambase (ascii "logo") m =
      (some ⟨rambase, offs (ascii "logo"), none⟩, m') := by
  refine ⟨m.store rambase (vsRead (offs (ascii "logo")) CONFIG_MAX_LOGO_SIZE).2, ?_⟩
  unfold loadImageTry
  exact if_pos rfl

/-- The image of the name is not the logo, and can be trusted. -/
def Trustworthy (S : BootStorage) (offs : List UInt8 → ℕ) (name : List UInt8) : Prop :=
  name ≠ ascii "logo" ∧ S.Trusted (offs name)

/-- A round that loads wrongly, for reads that are as bad as they can be. -/
theorem loadImageTry_untrusted (ht : ¬Trustworthy S offs name) {m : Mem}
    (hm : m 0x1000 = S.disk (offs name + 0x1000) + 1) : ∃ img m',
      loadImageTry offs (fun o len => (S.ret o len, spoil S o len)) 0 name m = (some img, m') ∧
        img.image = offs name ∧ ¬(img.checked = some img.dst ∧
          m'.load img.dst (S.imageLen (offs name)) =
            S.disk.load (offs name) (S.imageLen (offs name))) := by
  by_cases hl : name = ascii "logo"
  · subst hl
    obtain ⟨m', hm'⟩ := @loadImageTry_logo offs (fun o len => (S.ret o len, spoil S o len)) 0 m
    exact ⟨_, m', hm', rfl, fun h => absurd (show none = some 0 from h.1) nofun⟩
  · exact loadImageTry_bad (fun htr => ht ⟨hl, htr⟩) hl hm

theorem LoadImageRight.primary (h : LoadImageRight S offs name alternate) :
    Trustworthy S offs name := by
  by_contra ht
  obtain ⟨img, m', htry, himg, hbad⟩ :=
    @loadImageTry_untrusted S offs name ht (fun a => S.disk (offs name + a) + 1) rfl
  have hload : loadImage offs (fun o len => (S.ret o len, spoil S o len)) 0 name alternate
      (fun a => S.disk (offs name + a) + 1) = (some img, m') := by
    rw [loadImage, htry]
  obtain ⟨-, hck, -, hcontent⟩ := h.sound _ (delivers_spoil S) _ _ _ _ hload
  rw [himg] at hcontent
  exact hbad ⟨hck, hcontent⟩

theorem LoadImageRight.secondary (h : LoadImageRight S offs name alternate)
    (hu : ¬S.Usable (offs name)) : ∀ alt ∈ alternate, Trustworthy S offs alt := by
  rintro alt rfl
  by_contra ht
  obtain ⟨hl, htr⟩ := h.primary
  set m : Mem := fun a => S.disk (offs alt + a) + 1
  rcases @loadImageTry_trusted S offs (spoil S) 0 name m (delivers_spoil S) hl htr with
    ⟨hus, -⟩ | ⟨-, m1, hfirst⟩
  · exact hu hus
  have hkeep := loadImageTry_rejected hl hfirst
  obtain ⟨img, m', htry, himg, hbad⟩ := loadImageTry_untrusted ht hkeep
  have hload : loadImage offs (fun o len => (S.ret o len, spoil S o len)) 0 name (some alt) m =
      (some img, m') := by
    rw [loadImage, hfirst]
    exact htry
  obtain ⟨-, hck, -, hcontent⟩ := h.sound _ (delivers_spoil S) _ _ _ _ hload
  rw [himg] at hcontent
  exact hbad ⟨hck, hcontent⟩

/-- The loader is right about a pair of images just where neither of those it gets to is taken for
complete without being so, is marked as compressed, or is the logo. -/
theorem load_image_right_iff (S : BootStorage) (offs : List UInt8 → ℕ) (name : List UInt8)
    (alternate : Option (List UInt8)) : LoadImageRight S offs name alternate ↔
      Trustworthy S offs name ∧
        (S.Usable (offs name) ∨ ∀ alt ∈ alternate, Trustworthy S offs alt) := by
  constructor
  · intro h
    refine ⟨h.primary, ?_⟩
    by_cases hu : S.Usable (offs name)
    · exact Or.inl hu
    · exact Or.inr (h.secondary hu)
  · rintro ⟨⟨hl, htr⟩, halt⟩
    -- what the two rounds come to
    have hcases (data : ℕ → ℤ → List UInt8) (hd : S.Delivers data) (rambase : ℕ) (m : Mem) :
        (∃ img m', loadImage offs (fun o len => (S.ret o len, data o len)) rambase name
          alternate m =
            (some img, m') ∧ (img.image = offs name ∨
              ¬S.Usable (offs name) ∧ ∃ alt ∈ alternate, img.image = offs alt) ∧
            S.Usable img.image ∧ img.checked = some img.dst ∧
            m'.load img.dst (S.imageLen img.image) = S.disk.load img.image (S.imageLen img.image)) ∨
          ∃ m', loadImage offs (fun o len => (S.ret o len, data o len)) rambase name alternate m =
            (none, m') ∧ ¬S.Usable (offs name) ∧ ∀ alt ∈ alternate, ¬S.Usable (offs alt) := by
      rcases @loadImageTry_trusted S offs data rambase name m hd hl htr with
        ⟨hu, img, m', htry, himg, hck, hcontent⟩ | ⟨hu, m1, hfirst⟩
      · refine Or.inl ⟨img, m', ?_, Or.inl himg, himg ▸ hu, hck, himg ▸ hcontent⟩
        rw [loadImage, htry]
      rcases alternate with _ | alt
      · refine Or.inr ⟨m1, ?_, hu, nofun⟩
        rw [loadImage, hfirst]
      obtain ⟨hl', htr'⟩ := halt.resolve_left hu alt rfl
      rcases @loadImageTry_trusted S offs data rambase alt m1 hd hl' htr' with
        ⟨hu', img, m', htry, himg, hck, hcontent⟩ | ⟨hu', m2, hsecond⟩
      · refine Or.inl ⟨img, m', ?_, Or.inr ⟨hu, alt, rfl, himg⟩, himg ▸ hu', hck, himg ▸ hcontent⟩
        rw [loadImage, hfirst]
        exact htry
      · refine Or.inr ⟨m2, ?_, hu, ?_⟩
        · rw [loadImage, hfirst]
          exact hsecond
        · intro alt' halt'
          obtain rfl := Option.mem_some.1 halt'
          exact hu'
    refine ⟨fun data hd rambase m img m' hload => ?_, fun data hd rambase m hu => ?_,
      fun data hd rambase m m' hload => ?_⟩
    · rcases hcases data hd rambase m with ⟨img', m'', hload', hwhich, hu, hck, hcontent⟩ |
        ⟨m'', hload', -⟩
      · rw [hload] at hload'
        obtain ⟨himg, rfl⟩ := Prod.mk.inj hload'
        obtain rfl := Option.some.inj himg
        exact ⟨hwhich.imp_right And.right, hck, hu.intact, hcontent⟩
      · rw [hload] at hload'
        exact absurd (Prod.mk.inj hload').1 nofun
    · rcases hcases data hd rambase m with ⟨img, m', hload, hwhich, -⟩ | ⟨m', -, hnot, -⟩
      · exact ⟨img, m', hload, hwhich.resolve_right fun h => h.1 hu⟩
      · exact absurd hu hnot
    · rcases hcases data hd rambase m with ⟨img, m'', hload', -⟩ | ⟨m'', -, hu, hnone⟩
      · rw [hload] at hload'
        exact absurd (Prod.mk.inj hload').1 nofun
      · exact ⟨hu, hnone⟩

/-- The header of an image without data. -/
def emptyImage : List UInt8 := [0, 0, 0, 0, 0x75, 0x8d, 0x63, 0x36] ++ List.replicate 56 0

/-- The image is there, and all reads but those of the first 4K fail. -/
def unreadable : BootStorage where
  disk a := emptyImage.getD a 0
  ret _ len := if len = 0x1000 then 0x1000 else -1
  full _ len := decide (len = 0x1000)
  ret_range _ len := by split_ifs <;> omega
  full_ret _ len h _ := by
    have hlen := of_decide_eq_true h
    rw [if_pos hlen, hlen]
  header_full _ _ := rfl

set_option maxRecDepth 4000 in
/-- The error of the second read is taken for its length. -/
theorem load_image_right_fails : ¬∀ (S : BootStorage) (offs : List UInt8 → ℕ) (name : List UInt8)
    (alternate : Option (List UInt8)), LoadImageRight S offs name alternate := by
  intro h
  have htr := (h unreadable (fun _ => 0) (ascii "kernel0") none).primary.2
  have hfull := (htr (by decide) (by decide) (by decide)).2.2
  exact absurd hfull (by decide)

end Right

end InfotmUboot

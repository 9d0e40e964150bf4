import InfotmUboot.Proofs.Drivers

/-!
# What the burn loop writes

With a source whose reads succeed, the data of the rounds is the image in order, encrypted if its
header asks for it (`burnLoop_payload`).
-/

namespace InfotmUboot

open Lib

/-- A source that holds `img` and a crypto engine, whose calls all succeed. -/
structure Source {σ : Type} (other : σ → Op → Reply × σ) (d : Dev) (img : Mem) where
  readable : d.entry.read = true
  not_nand : d.isNand = false
  Engine : Type
  engine : σ → Engine
  init : Engine
  cipher : Engine → List UInt8 → List UInt8 × Engine
  read_data : ∀ s start n, (other s (.read d start n)).1.data = img.load start n.toNat
  read_engine : ∀ s start n, engine (other s (.read d start n)).2 = engine s
  init_engine : ∀ s, engine (other s (.aesInit ENCRYPTION none)).2 = init
  aes_data : ∀ s bs, (other s (.aesData bs)).1.data = (cipher (engine s) bs).1
  aes_engine : ∀ s bs, engine (other s (.aesData bs)).2 = (cipher (engine s) bs).2
  length_cipher : ∀ e bs, (cipher e bs).1.length = bs.length

/-- A card of zeros. -/
def zeroMedia (_ : Unit) : Op → Reply × Unit
  | .read _ _ n => (⟨n, List.replicate n.toNat 0⟩, ())
  | .aesData bs => (⟨0, bs⟩, ())
  | _ => (⟨0, []⟩, ())

def zeroSource : Source zeroMedia .mmc0 fun _ => 0 where
  readable := rfl
  not_nand := rfl
  Engine := Unit
  engine := id
  init := ()
  cipher := fun _ bs => (bs, ())
  read_data := fun s start n => by simp [zeroMedia, Mem.load]
  read_engine := fun _ _ _ => rfl
  init_engine := fun _ => rfl
  aes_data := fun _ _ => rfl
  aes_engine := fun _ _ => rfl
  length_cipher := fun _ _ => rfl

section Header

theorem isiCheckHeader_congr {m m' : Mem} {a b : ℕ}
    (h : ∀ i < ISI_SIZE, m (a + i) = m' (b + i)) : isiCheckHeader m a = isiCheckHeader m' b := by
  have hget (i : ℕ) (hi : i + 4 ≤ ISI_SIZE) : m.get32 (a + i) = m'.get32 (b + i) := by
    simp only [Mem.get32, Mem.get16, Nat.add_assoc]
    rw [h i (by omega), h (i + 1) (by omega), h (i + 2) (by omega), h (i + (2 + 1)) (by omega)]
  have hstore : (m.store (a + 28) (bytes32 0)).load a ISI_SIZE =
      (m'.store (b + 28) (bytes32 0)).load b ISI_SIZE := by
    refine Mem.load_congr fun i hi => ?_
    by_cases h1 : 28 ≤ i ∧ i < 32
    · obtain ⟨j, rfl⟩ := Nat.exists_eq_add_of_le h1.1
      have hj : j < (bytes32 0).length := by
        rw [length_bytes32]
        omega
      rw [← Nat.add_assoc, ← Nat.add_assoc, Mem.store_add _ _ _ hj, Mem.store_add _ _ _ hj]
    · rw [Mem.store, Mem.store, length_bytes32, if_neg (by omega), if_neg (by omega), h i hi]
  unfold isiCheckHeader
  rw [hget 28 (by decide), hstore]
  have h0 := hget 0 (by decide)
  simp only [Nat.add_zero] at h0
  rw [h0]

theorem isiIsSecure_congr {m m' : Mem} {a b : ℕ}
    (h : ∀ i < ISI_SIZE, m (a + i) = m' (b + i)) : isiIsSecure m a = isiIsSecure m' b := by
  have hsize : ISI_SIZE = 0x200 := rfl
  simp only [isiIsSecure, Mem.get32, Mem.get16, Nat.add_assoc]
  rw [h 4 (by omega), h (4 + 1) (by omega), h (4 + 2) (by omega), h (4 + (2 + 1)) (by omega)]

end Header

section Source

variable {σ : Type} {other : σ → Op → Reply × σ} {dI : Dev} {img : Mem}
variable (S : Source other dI img) (B : Board) (bad : ℕ → Bool)

include S in
theorem vsRead_source (start : ℕ) {n : ℕ} (hn : n ≠ 0) (w : World σ) :
    let out := Prog.run (nandStep B bad other) (vsRead (some dI) start n) w
    out.val.2 = img.load start n ∧ S.engine out.env.other = S.engine w.other := by
  have hz : ¬(n : ℤ) = 0 := by exact_mod_cast hn
  have hp : nandProg B (.read dI start n) = none := by
    simp only [nandProg, S.not_nand, Bool.false_eq_true, if_false]
  simp only [vsRead, S.readable, not_true_eq_false, if_false, hz, Prog.run_bind, Prog.run_op,
    Prog.run_pure, nandStep_other B bad other w _ hp]
  exact ⟨S.read_data _ _ _, S.read_engine _ _ _⟩

/-- The image has a secure header where headers are looked at. -/
def secureImage (desc : IusDesc) (img : Mem) : Bool :=
  (desc.type = IUS_DESC_STNB ∨ desc.type = IUS_DESC_STRW) ∧ isiCheckHeader img desc.offi = 0 ∧
    isiIsSecure img desc.offi = true

/-- A unit of the image as it is burnt, and the crypto engine after it. -/
def Source.unitData (enc : Bool) (e : S.Engine) (offs unit : ℕ) : List UInt8 × S.Engine :=
  if enc then S.cipher e (img.load offs unit) else (img.load offs unit, e)

/-- `n` units of the image from `offs` on, as they are burnt. -/
def Source.payload (enc : Bool) (unit : ℕ) : ℕ → S.Engine → ℕ → List (List UInt8)
  | 0, _, _ => []
  | n + 1, e, offs =>
    (S.unitData enc e offs unit).1 ::
      payload enc unit n (S.unitData enc e offs unit).2 (offs + unit)

theorem length_unitData (enc : Bool) (e : S.Engine) (offs unit : ℕ) :
    (S.unitData enc e offs unit).1.length = unit := by
  unfold Source.unitData
  split_ifs
  · rw [S.length_cipher, Mem.length_load]
  · exact Mem.length_load _ _ _

theorem length_payload (enc : Bool) (unit : ℕ) :
    ∀ (n : ℕ) (e : S.Engine) (offs : ℕ), (S.payload enc unit n e offs).length = n
  | 0, _, _ => rfl
  | n + 1, _, _ => congrArg (· + 1) (length_payload enc unit n _ _)

theorem length_of_mem_payload (enc : Bool) (unit : ℕ) :
    ∀ (n : ℕ) (e : S.Engine) (offs : ℕ), ∀ bs ∈ S.payload enc unit n e offs, bs.length = unit
  | 0, _, _, bs, h => absurd h List.not_mem_nil
  | n + 1, e, offs, bs, h => by
    rcases List.mem_cons.1 h with rfl | h
    · exact length_unitData S enc e offs unit
    · exact length_of_mem_payload enc unit n _ _ bs h

/-- What is not encrypted is the image. -/
theorem payload_plain (unit : ℕ) :
    ∀ (n : ℕ) (e : S.Engine) (offs : ℕ),
      (S.payload false unit n e offs).flatten = img.load offs (n * unit)
  | 0, _, _ => by simp [Source.payload]
  | n + 1, e, offs => by
    simp only [Source.payload, Source.unitData, Bool.false_eq_true, if_false, List.flatten_cons]
    rw [payload_plain unit n e (offs + unit), Nat.add_mul, Nat.one_mul, Nat.add_comm (n * unit),
      Mem.load_add]

section Rounds

variable (c : BurnConf) (hI : Dev.ofId c.idI = some dI) (hunit : c.unit ≠ 0)
variable (henc : c.encrypt = true → c.unit = c.step)
include hI hunit henc

/-- The read half of a round leaves the next unit of the image in the buffer. -/
theorem burnFetch_payload (p : BurnPos) (w : World σ) :
    let out := Prog.run (nandStep B bad other) (burnFetch c p) w
    let u := S.unitData c.encrypt (S.engine w.other) p.offsI c.unit
    BurnPos.data c { p with buf := out.val } = u.1 ∧ S.engine out.env.other = u.2 := by
  obtain ⟨hdata, hengine⟩ := vsRead_source S B bad p.offsI hunit w
  set r := Prog.run (nandStep B bad other) (vsRead (some dI) p.offsI c.unit) w with hr
  have hload : ∀ m : Mem, (m.store p.bufAt (r.val.2.take c.unit)).load p.bufAt c.unit =
      img.load p.offsI c.unit := fun m => by
    rw [hdata, List.take_of_length_le (by rw [Mem.length_load])]
    have h := Mem.load_store_same m p.bufAt (img.load p.offsI c.unit)
    rwa [Mem.length_load] at h
  unfold burnFetch
  rw [vsAssignById_false, pure_bind, hI]
  dsimp only
  simp only [Prog.run_bind, ← hr]
  by_cases he : c.encrypt = true
  · have hp (bs : List UInt8) : nandProg B (.aesData bs) = none := rfl
    simp only [he, if_true, ssAesData, Prog.run_bind, Prog.run_op, Prog.run_pure, BurnPos.data,
      Source.unitData]
    rw [nandStep_other B bad other _ _ (hp _), ← henc he, hload, S.aes_data, hengine]
    have hlen : ((S.cipher (S.engine w.other) (img.load p.offsI c.unit)).1).length = c.unit := by
      rw [S.length_cipher, Mem.length_load]
    refine ⟨?_, ?_⟩
    · rw [List.take_of_length_le hlen.le]
      have h := Mem.load_store_same (p.buf.store p.bufAt (r.val.2.take c.unit)) p.bufAt
        (S.cipher (S.engine w.other) (img.load p.offsI c.unit)).1
      rwa [hlen] at h
    · rw [S.aes_engine, hengine]
  · simp only [he, Bool.false_eq_true, if_false, Prog.run_pure, BurnPos.data, Source.unitData]
    exact ⟨hload _, hengine⟩

variable {d : Dev} (hO : Dev.ofId c.idO = some d) (hd : d.isNand = true)
include hO hd

/-- The data of the writes is the payload, as far as the loop gets. -/
theorem burnLoop_payload (hskip : c.skip ≠ 0 → d.entry.isbad = true) (hstep : 0 < c.step) :
    ∀ (n : ℕ) (p : BurnPos) (w : World σ), p.remain ≤ n →
      (writeOps (Prog.run (nandStep B bad other) (burnLoop c n p) w).log).map (fun x => x.2.2) <+:
        S.payload c.encrypt c.unit (chunks p.remain c.step) (S.engine w.other) p.offsI
  | 0, p, w, hn => by simp [burnLoop]
  | n + 1, p, w, hn => by
    by_cases hp : p.remain = 0
    · rw [burnLoop_zero c _ hp]
      simp
    · rw [burnLoop_succ (nandStep B bad other) c n hp w, chunks_sub hstep hp, Source.payload]
      obtain ⟨hdata, hengine⟩ := burnFetch_payload S B bad c hI hunit henc p w
      have hfetch := burnFetch_writeOps (nandStep B bad other) c p w
      set f := Prog.run (nandStep B bad other) (burnFetch c p) w
      obtain ⟨_, hwr, hnw, _⟩ :=
        burnPlace_run (nandStep B bad other) c hO hskip { p with buf := f.val } f.env
      have hother := burnPlace_other B bad other c hO hd { p with buf := f.val } f.env
      set s := Prog.run (nandStep B bad other) (burnPlace c { p with buf := f.val }) f.env
      by_cases hg : s.val.1 = true
      · have hrem : (p.next c f.val s.val.2.1 s.val.2.2).remain ≤ n := by
          rw [next_remain]
          omega
        have ih := burnLoop_payload hskip hstep n _ s.env hrem
        rw [hother, hengine, next_remain, next_offsI] at ih
        have hw : c.Writes d := by
          refine ⟨?_, hunit⟩
          cases d <;> first | rfl | exact absurd hd (by decide)
        rw [if_pos hg]
        simp only [writeOps_append, hfetch, List.nil_append, hwr hg hw, List.map_cons, hdata,
          List.singleton_append]
        exact List.cons_prefix_cons.2 ⟨rfl, ih⟩
      · rw [if_neg hg]
        simp only [writeOps_append, hfetch, List.nil_append, hnw (Or.inl (eq_false_of_ne_true hg)),
          List.map_nil]
        exact List.nil_prefix

end Rounds

/-- The look for a secure header. -/
theorem burnEncrypt_secure (desc : IusDesc) {idI : ℤ} (buf : Mem) (bufAt : ℕ)
    (hI : Dev.ofId idI = some dI) (w : World σ) :
    let out := Prog.run (nandStep B bad other) (burnEncrypt desc.type idI desc.offi buf bufAt) w
    out.val.1 = secureImage desc img ∧
      S.engine out.env.other = if secureImage desc img then S.init else S.engine w.other := by
  unfold burnEncrypt
  rw [vsAssignById_false, pure_bind, hI]
  dsimp only
  by_cases ht : desc.type ≠ IUS_DESC_STNB ∧ desc.type ≠ IUS_DESC_STRW
  · have hs : secureImage desc img = false := by
      simp [secureImage, ht.1, ht.2]
    rw [if_pos ht, hs]
    exact ⟨rfl, rfl⟩
  · have ht' : desc.type = IUS_DESC_STNB ∨ desc.type = IUS_DESC_STRW := by
      by_contra hno
      exact ht (not_or.1 hno)
    obtain ⟨hdata, hengine⟩ := vsRead_source S B bad desc.offi (by decide : ISI_SIZE ≠ 0) w
    rw [if_neg ht]
    simp only [Prog.run_bind]
    set r := Prog.run (nandStep B bad other) (vsRead (some dI) desc.offi ISI_SIZE) w
    have hm : ∀ i < ISI_SIZE, buf.store bufAt (r.val.2.take ISI_SIZE) (bufAt + i) =
        img (desc.offi + i) := fun i hi => by
      have hlen : i < (r.val.2.take ISI_SIZE).length := by
        rw [hdata, Mem.take_load _ _ (le_refl _), Mem.length_load]
        exact hi
      rw [Mem.store_add _ _ _ hlen]
      simp [hdata, Mem.getElem_load]
    rw [isiCheckHeader_congr hm, isiIsSecure_congr hm]
    by_cases hsec : isiCheckHeader img desc.offi = 0 ∧ isiIsSecure img desc.offi = true
    · have hs : secureImage desc img = true := by
        simp [secureImage, ht', hsec.1, hsec.2]
      have hp : nandProg B (.aesInit ENCRYPTION none) = none := rfl
      rw [if_pos hsec, hs]
      simp only [Prog.run_bind, Prog.run_op, Prog.run_pure, nandStep_other B bad other _ _ hp]
      exact ⟨trivial, S.init_engine _⟩
    · have hs : secureImage desc img = false := by
        simp only [secureImage, ht', true_and, decide_eq_false_iff_not]
        exact hsec
      rw [if_neg hsec, hs]
      exact ⟨rfl, hengine⟩

/-- What the prelude finds in the header, and the state it leaves the crypto engine in. -/
theorem burnPrelude_secure (desc : IusDesc) {idI idO : ℤ} {d : Dev} (max : ℕ) (buf : Mem)
    (bufAt : ℕ) (hI : Dev.ofId idI = some dI) (hO : Dev.ofId idO = some d)
    (hd : d.isNand = true) (w : World σ) :
    let out := Prog.run (nandStep B bad other) (burnPrelude desc idI idO max buf bufAt) w
    out.val.1 = secureImage desc img ∧
      S.engine out.env.other = if secureImage desc img then S.init else S.engine w.other := by
  have herasable : vsDeviceErasable idO = true := by
    rw [vsDeviceErasable, hO]
    cases d <;> first | rfl | exact absurd hd (by decide)
  have herase : d.entry.erase = true := by
    cases d <;> first | rfl | exact absurd hd (by decide)
  have hp : (nandProg B (.erase d desc.offo max)).isSome = true := by
    rw [nandProg, if_pos hd]
    rfl
  unfold burnPrelude
  rw [if_pos herasable, vsAssignById_false, pure_bind, hO]
  simp only [vsErase, herase, if_true, Prog.run_bind, Prog.run_op, Prog.run_pure]
  have hw := nandStep_nand B bad other w hp
  obtain ⟨hval, hengine⟩ := burnEncrypt_secure S B bad desc buf bufAt hI
    (nandStep B bad other w (.erase d desc.offo max)).2
  rw [hw] at hengine
  exact ⟨hval, hengine⟩

end Source

end InfotmUboot

import InfotmUboot.Lib.Trace

/-!
# Programs within programs

`mapOp f p` asks what `p` asks, as operations of a program that can ask for more.
-/

namespace Lib

namespace Prog

variable {O O' R α σ : Type}

def mapOp (f : O → O') : Prog O R α → Prog O' R α
  | done a => done a
  | ask o k => ask (f o) fun r => (k r).mapOp f

theorem run_mapOp (f : O → O') (h : σ → O' → R × σ) (p : Prog O R α) (s : σ) :
    run h (p.mapOp f) s =
      ⟨(run (fun s o => h s (f o)) p s).val, (run (fun s o => h s (f o)) p s).env,
        (run (fun s o => h s (f o)) p s).log.map fun x => (f x.1, x.2)⟩ := by
  induction p generalizing s with
  | done a => rfl
  | ask o k ih =>
    simp only [mapOp, run]
    rw [ih]
    simp

theorem Traces.mapOp {f : O → O'} {h : σ → O' → R × σ} {p : Prog O R α}
    {Q : α → List (O' × R) → Prop}
    (hp : Traces (fun s o => h s (f o)) p fun a l => Q a (l.map fun x => (f x.1, x.2))) :
    Traces h (p.mapOp f) Q := by
  intro s
  rw [run_mapOp]
  exact hp s

end Prog

end Lib

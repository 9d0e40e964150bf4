import InfotmUboot.Proofs.Cread
import InfotmUboot.Text

/-!
# The lines before and after

What the keys for the line before and for the line after show once some lines have been entered: a
walk over the last of them, and back (`history_right`).
-/

namespace InfotmUboot

open Lib

section Lines

/-- What the history gets of a line that is returned: nothing of one that is given up, is empty or
is begun by `!`. -/
def historyLine (e : Entered) : Option (List UInt8) :=
  let line := e.2.takeWhile (· ≠ 0)
  if e.1 < 0 ∨ line = [] ∨ line.head? = some '!'.toUInt8 then none else some line

/-- The last lines, the newest first. -/
def historyLines (es : List Entered) : List (List UInt8) :=
  (es.filterMap historyLine).reverse.take pastMax

def prevKeys : List (List UInt8) := [[ctlCh 'p'], [0x1b, '['.toUInt8, 'A'.toUInt8]]

def nextKeys : List (List UInt8) := [[ctlCh 'n'], [0x1b, '['.toUInt8, 'B'.toUInt8]]

/-- No key has been pressed since the last line. -/
def AtPrompt (keys : List UInt8) : Prop :=
  keys = [] ∨ ∃ pre, keys = pre ++ ['\n'.toUInt8] ∨ keys = pre ++ ['\r'.toUInt8]

/-- The line so many lines back, where the one being entered is empty. -/
def lineBack (past : List (List UInt8)) (back : ℕ) : List UInt8 :=
  if back = 0 then [] else past.getD (back - 1) []

/-- From the prompt on, any number of lines back and then towards the last one again: what is in the
buffer is the line there, neither end being passed. -/
def HistoryRight (cm : ConsoleMem) (m : Mem) (keys : List UInt8) : Prop :=
  ∀ prevs nexts : List (List UInt8), (∀ p ∈ prevs, p ∈ prevKeys) → (∀ n ∈ nexts, n ∈ nextKeys) →
    let past := historyLines (readlineKeys cm (readlineStart cm m) keys).2
    let s := (readlineKeys cm (readlineStart cm m) (keys ++ prevs.flatten ++ nexts.flatten)).1
    s.mem.load cm.buf s.eolNum = lineBack past (min prevs.length past.length - nexts.length)

end Lines

section Editing

theorem put_past (c : UInt8) (ed : Editor) : (ed.put c).past = ed.past := by
  unfold Editor.put
  split_ifs <;> rfl

theorem type_past : ∀ (cs : List UInt8) (ed : Editor), (ed.type cs).past = ed.past
  | [], _ => rfl
  | c :: cs, ed => (type_past cs (ed.put c)).trans (put_past c ed)

theorem edit_past (e : Edit) (ed : Editor) : (ed.edit e).past = ed.past := by
  cases e with
  | eraseBack =>
    unfold Editor.edit
    dsimp only
    split_ifs <;> rfl
  | older =>
    change ed.older.past = _
    unfold Editor.older
    split <;> rfl
  | newer =>
    change ed.newer.past = _
    unfold Editor.newer
    split <;> rfl
  | put c => exact put_past c ed
  | _ => rfl

theorem takeWhile_zero : ∀ text : List UInt8,
    (text ++ [0]).takeWhile (· ≠ 0) = text.takeWhile (· ≠ 0)
  | [] => rfl
  | c :: text => by
    rw [List.cons_append, List.takeWhile_cons, List.takeWhile_cons, takeWhile_zero text]

theorem historyLine_entered (text : List UInt8) :
    historyLine ((text.length : ℤ), text ++ [0]) =
      if text.takeWhile (· ≠ 0) = [] ∨ (text.takeWhile (· ≠ 0)).head? = some '!'.toUInt8 then none
      else some (text.takeWhile (· ≠ 0)) := by
  have hneg : ¬(text.length : ℤ) < 0 := by omega
  unfold historyLine
  simp only [takeWhile_zero, hneg, false_or]

theorem take_append_take {α : Type} (n : ℕ) (as bs : List α) :
    (as ++ bs.take n).take n = (as ++ bs).take n := by
  rw [List.take_append, List.take_append, List.take_take, Nat.min_eq_left (Nat.sub_le _ _)]

/-- A key adds to the lines what it returns. -/
theorem key_past {ed : Editor} (hp : ed.past.length ≤ pastMax) (k : UInt8) :
    (ed.key k).1.past =
      (((ed.key k).2.toList.filterMap historyLine).reverse ++ ed.past).take pastMax := by
  have hsame : ed.past = ed.past.take pastMax := (List.take_of_length_le hp).symm
  unfold Editor.key
  cases keyAct ed.esc k with
  | enter =>
    simp only [Editor.act, Editor.enter, Option.toList_some, List.filterMap_cons,
      List.filterMap_nil, historyLine_entered]
    split_ifs with hline
    · exact hsame
    · rfl
  | cancel => exact hsame
  | hold esc => exact hsame
  | edit e => exact (edit_past e _).trans hsame
  | type cs => exact (type_past cs ed).trans hsame

theorem length_past {ed : Editor} (hp : ed.past.length ≤ pastMax) (k : UInt8) :
    (ed.key k).1.past.length ≤ pastMax := by
  rw [key_past hp, List.length_take]
  exact Nat.min_le_left _ _

theorem keys_past : ∀ (ks : List UInt8) {ed : Editor}, ed.past.length ≤ pastMax →
    (ed.keys ks).1.past =
      (((ed.keys ks).2.filterMap historyLine).reverse ++ ed.past).take pastMax
  | [], _, hp => (List.take_of_length_le hp).symm
  | k :: ks, ed, hp => by
    rw [Editor.keys]
    dsimp only
    rw [keys_past ks (length_past hp k), key_past hp, List.filterMap_append, List.reverse_append,
      List.append_assoc, take_append_take]

theorem keys_append : ∀ (ks ks' : List UInt8) (ed : Editor),
    (ed.keys (ks ++ ks')).1 = ((ed.keys ks).1.keys ks').1
  | [], _, _ => rfl
  | k :: ks, ks', ed => keys_append ks ks' (ed.key k).1

theorem fits_append : ∀ (ks ks' : List UInt8) (ed : Editor),
    ed.Fits (ks ++ ks') ↔ ed.Fits ks ∧ (ed.keys ks).1.Fits ks'
  | [], _, _ => ⟨fun h => ⟨trivial, h⟩, fun h => h.2⟩
  | k :: ks, ks', ed => by
    rw [List.cons_append, Editor.Fits, Editor.Fits, fits_append ks ks' (ed.key k).1, and_assoc]
    rfl

/-- The line is the one so many lines back, and no sequence of keys has begun. -/
structure ShowsBack (past : List (List UInt8)) (back : ℕ) (ed : Editor) : Prop where
  past_eq : ed.past = past
  back_eq : ed.back = back
  text_eq : ed.text = lineBack past back
  esc_nil : ed.esc = []

theorem showsBack_prompt {keys : List UInt8} (h : AtPrompt keys) :
    ShowsBack (editorStart.keys keys).1.past 0 (editorStart.keys keys).1 := by
  rcases h with rfl | ⟨pre, rfl | rfl⟩
  · exact ⟨rfl, rfl, rfl, rfl⟩
  all_goals
    rw [keys_append]
    exact ⟨rfl, rfl, rfl, rfl⟩

variable {past : List (List UInt8)} {back : ℕ} {ed : Editor}

theorem showsBack_older (h : ShowsBack past back ed) (hb : back ≤ past.length) :
    ShowsBack past (min (back + 1) past.length) ed.older := by
  unfold Editor.older
  rw [h.past_eq, h.back_eq]
  rcases hp : past[back]? with _ | text
  · rw [List.getElem?_eq_none_iff] at hp
    rw [Nat.min_eq_right (by omega), Nat.le_antisymm hp hb]
    exact Nat.le_antisymm hp hb ▸ h
  · obtain ⟨hlt, rfl⟩ := List.getElem?_eq_some_iff.1 hp
    rw [Nat.min_eq_left (by omega)]
    refine ⟨rfl, rfl, ?_, h.esc_nil⟩
    rw [lineBack, if_neg (Nat.succ_ne_zero back), Nat.add_sub_cancel, List.getD_eq_getElem _ _ hlt]

theorem showsBack_newer (h : ShowsBack past back ed) : ShowsBack past (back - 1) ed.newer := by
  unfold Editor.newer
  rw [h.back_eq, h.past_eq]
  rcases back with _ | n
  · exact h
  · exact ⟨rfl, rfl, rfl, h.esc_nil⟩

theorem older_keys {p : List UInt8} (hp : p ∈ prevKeys) (h : ed.esc = []) :
    ed.Fits p ∧ (ed.keys p).1 = ({ ed with esc := [] } : Editor).older := by
  obtain rfl | rfl : p = [ctlCh 'p'] ∨ p = [0x1b, '['.toUInt8, 'A'.toUInt8] := by
    simpa [prevKeys] using hp
  · have hk : keyAct ed.esc (ctlCh 'p') = .edit .older := by
      rw [h]
      decide
    simp only [Editor.Fits, Editor.RefusesKey, Editor.keys, Editor.key, hk]
    exact ⟨⟨id, trivial⟩, rfl⟩
  · have hk : keyAct ed.esc 0x1b = .hold [0x1b] := by
      rw [h]
      decide
    simp only [Editor.Fits, Editor.RefusesKey, Editor.keys, Editor.key, hk, Editor.act]
    exact ⟨⟨id, id, id, trivial⟩, rfl⟩

theorem newer_keys {p : List UInt8} (hp : p ∈ nextKeys) (h : ed.esc = []) :
    ed.Fits p ∧ (ed.keys p).1 = ({ ed with esc := [] } : Editor).newer := by
  obtain rfl | rfl : p = [ctlCh 'n'] ∨ p = [0x1b, '['.toUInt8, 'B'.toUInt8] := by
    simpa [nextKeys] using hp
  · have hk : keyAct ed.esc (ctlCh 'n') = .edit .newer := by
      rw [h]
      decide
    simp only [Editor.Fits, Editor.RefusesKey, Editor.keys, Editor.key, hk]
    exact ⟨⟨id, trivial⟩, rfl⟩
  · have hk : keyAct ed.esc 0x1b = .hold [0x1b] := by
      rw [h]
      decide
    simp only [Editor.Fits, Editor.RefusesKey, Editor.keys, Editor.key, hk, Editor.act]
    exact ⟨⟨id, id, id, trivial⟩, rfl⟩

theorem ShowsBack.release (h : ShowsBack past back ed) :
    ShowsBack past back { ed with esc := [] } :=
  ⟨h.past_eq, h.back_eq, h.text_eq, rfl⟩

theorem prevs_show : ∀ (ps : List (List UInt8)), (∀ p ∈ ps, p ∈ prevKeys) → ∀ {back : ℕ}
    {ed : Editor}, ShowsBack past back ed → back ≤ past.length →
      ed.Fits ps.flatten ∧
        ShowsBack past (min (back + ps.length) past.length) (ed.keys ps.flatten).1
  | [], _, back, ed, h, hb => by
    rw [List.length_nil, Nat.add_zero, Nat.min_eq_left hb]
    exact ⟨trivial, h⟩
  | p :: ps, hps, back, ed, h, hb => by
    obtain ⟨hfit, hkeys⟩ := older_keys (hps p List.mem_cons_self) h.esc_nil
    have hnext := showsBack_older h.release hb
    obtain ⟨hfits, hshow⟩ := prevs_show ps (fun q hq => hps q (List.mem_cons_of_mem _ hq)) hnext
      (Nat.min_le_right _ _)
    rw [List.flatten_cons, fits_append, keys_append, hkeys]
    refine ⟨⟨hfit, hfits⟩, ?_⟩
    have hcount : min (back + (p :: ps).length) past.length =
        min (min (back + 1) past.length + ps.length) past.length := by
      rw [List.length_cons]
      omega
    rw [hcount]
    exact hshow

theorem nexts_show : ∀ (ns : List (List UInt8)), (∀ n ∈ ns, n ∈ nextKeys) → ∀ {back : ℕ}
    {ed : Editor}, ShowsBack past back ed →
      ed.Fits ns.flatten ∧ ShowsBack past (back - ns.length) (ed.keys ns.flatten).1
  | [], _, back, ed, h => ⟨trivial, h⟩
  | n :: ns, hns, back, ed, h => by
    obtain ⟨hfit, hkeys⟩ := newer_keys (hns n List.mem_cons_self) h.esc_nil
    obtain ⟨hfits, hshow⟩ := nexts_show ns (fun q hq => hns q (List.mem_cons_of_mem _ hq))
      (showsBack_newer h.release)
    rw [List.flatten_cons, fits_append, keys_append, hkeys]
    refine ⟨⟨hfit, hfits⟩, ?_⟩
    rw [List.length_cons, Nat.add_comm, ← Nat.sub_sub]
    exact hshow

end Editing

section Recalling

variable {cm : ConsoleMem}

theorem readlineKeys_follows : ∀ {keys : List UInt8} {s : Cread} {ed : Editor}, Follows cm s ed →
    ed.Fits keys → (readlineKeys cm s keys).2 = (ed.keys keys).2 ∧
      Follows cm (readlineKeys cm s keys).1 (ed.keys keys).1
  | [], _, _, h, _ => ⟨rfl, h⟩
  | key :: keys, s, ed, h, hfit => by
    obtain ⟨hout, hnext⟩ := readlineKey_follows h hfit.1
    obtain ⟨hlines, hlast⟩ := readlineKeys_follows hnext hfit.2
    refine ⟨?_, hlast⟩
    rw [readlineKeys, Editor.keys]
    dsimp only
    rw [hout, hlines]

/-- Whatever was typed before, as long as nothing is put into a full line: from the prompt on the
keys show the last lines and nothing else. -/
theorem history_right (cm : ConsoleMem) (m : Mem) {keys : List UInt8}
    (hfit : editorStart.Fits keys) (hprompt : AtPrompt keys) : HistoryRight cm m keys := by
  intro prevs nexts hprevs hnexts
  dsimp only
  have hstart := readlineStart_follows cm m
  have hlines := (readlineKeys_follows hstart hfit).1
  have hpast := keys_past keys (show editorStart.past.length ≤ pastMax from Nat.zero_le _)
  rw [show editorStart.past = [] from rfl, List.append_nil] at hpast
  have hshow := showsBack_prompt hprompt
  obtain ⟨hfit₁, hshow₁⟩ := prevs_show prevs hprevs hshow (Nat.zero_le _)
  obtain ⟨hfit₂, hshow₂⟩ := nexts_show nexts hnexts hshow₁
  have hall : editorStart.Fits (keys ++ prevs.flatten ++ nexts.flatten) := by
    rw [fits_append, fits_append, keys_append]
    exact ⟨⟨hfit, hfit₁⟩, hfit₂⟩
  obtain ⟨-, hlast⟩ := readlineKeys_follows hstart hall
  rw [keys_append, keys_append] at hlast
  have hbuf := hlast.buf
  rw [Holds, ← hlast.eolNum] at hbuf
  rw [hlines, historyLines, ← hpast, hbuf, hshow₂.text_eq, Nat.zero_add]

theorem history_right_two : HistoryRight lowConsole (fun _ => 0) (ascii "a\nb\n") := by
  refine history_right _ _ ⟨?_, id, ?_, id, trivial⟩ (.inr ⟨ascii "a\nb", .inl rfl⟩)
  all_goals
    rintro ⟨-, hfull⟩
    exact absurd hfull (by decide)

end Recalling

section Overlong

/-- The slots behind the buffer, with a gap. -/
def farConsole : ConsoleMem := ⟨0, 1000, .inl (by decide)⟩

/-- As many letters as the buffer has bytes. -/
def overlong : List UInt8 := List.replicate 256 0x61

theorem prev_recalls {m : Mem} (ws : List (ℕ × ℕ)) {h : Hist} (num eolNum : ℕ)
    {line : List UInt8} {cur : ℤ} (hprev : histPrev farConsole m h =
      (some line, { h with cur := cur }))
    (hline : 0 ∉ line) (hlen : line.length < 2 ^ 32) : ∃ ws' num',
      readlineKey farConsole ⟨m, ws, h, num, eolNum, true, []⟩ (ctlCh 'p') =
        (⟨m.store 0 (line ++ [0]), ws', { h with cur := cur }, num', line.length, true, []⟩,
          none) := by
  have hkey : readlineKey farConsole ⟨m, ws, h, num, eolNum, true, []⟩ (ctlCh 'p') =
      (Cread.recall farConsole ⟨m, ws, h, num, eolNum, true, []⟩ (histPrev farConsole m h),
        none) := rfl
  have hstr : strlen (m.store 0 (line ++ [0])) 0 = line.length := by
    rw [strlen_eq (holds_store m 0 (line ++ [0])) hlen, takeWhile_clean hline]
  rw [hkey, hprev, recall_eq]
  simp only [farConsole, hstr]
  exact ⟨_, _, rfl⟩

/-- The end of a line that the history takes, with the line in the buffer. -/
theorem end_keeps {m : Mem} (ws : List (ℕ × ℕ)) (h : Hist) {line : List UInt8}
    (hm : Holds m 0 line) (hlen : line.length < 2 ^ 32) (hclean : 0 ∉ line)
    (hhead : ∀ c ∈ line.head?, c ≠ '!'.toUInt8) (hne : line ≠ []) : ∃ ws',
      readlineKey farConsole ⟨m, ws, h, line.length, line.length, true, []⟩ '\n'.toUInt8 =
        (⟨(m.store line.length [0]).store (1000 + h.addIdx * 256) (line ++ [0]), ws',
            { h.advance with
              cur := (h.advance.addIdx : ℕ) }, 0, 0, true, []⟩,
          some ((line.length : ℤ),
            ((m.store line.length [0]).store (1000 + h.addIdx * 256) (line ++ [0])).load 0
              (line.length + 1))) := by
  have hline : Holds (m.store line.length [0]) 0 (line ++ [0]) := by
    have hzero := hm.splice le_rfl [0]
    rwa [Nat.zero_add, List.take_length] at hzero
  have hcstr : cstr (m.store line.length [0]) 0 = line := by
    rw [cstr_eq hline hlen, takeWhile_clean hclean]
  have hfirst : m.store line.length [0] 0 ≠ 0 ∧ m.store line.length [0] 0 ≠ '!'.toUInt8 := by
    obtain ⟨c, rest, rfl⟩ := List.exists_cons_of_ne_nil hne
    rw [(holds_cons.1 hline).1]
    exact ⟨fun h0 => hclean (h0 ▸ List.mem_cons_self), hhead c rfl⟩
  have hkey : readlineKey farConsole ⟨m, ws, h, line.length, line.length, true, []⟩
      '\n'.toUInt8 =
        let r := creadEnd farConsole ⟨m, ws, h, line.length, line.length, true, []⟩
        r.2.elim (r.1, none) fun line => (creadLine r.1, some line) := rfl
  rw [hkey, creadEnd]
  simp only [Cread.write, farConsole, Nat.zero_add, if_pos hfirst, creadAddToHist, hcstr]
  exact ⟨_, rfl⟩

/-- The zero of an overlong line is in the slot of the next one. -/
theorem overlong_recalled {m : Mem} (hm : Holds m 1000 overlong) (ws : List (ℕ × ℕ)) :
    (readlineKeys farConsole ⟨m, ws, ⟨1, 1, 1⟩, 0, 0, true, []⟩ [0x62, '\n'.toUInt8]).2 =
        [(1, [0x62, 0])] ∧
      (readlineKeys farConsole ⟨m, ws, ⟨1, 1, 1⟩, 0, 0, true, []⟩
        [0x62, '\n'.toUInt8, ctlCh 'p', ctlCh 'p']).1.eolNum = 257 := by
  have hlen : overlong.length = 256 := List.length_replicate
  have hclean : 0 ∉ overlong := fun h0 => absurd (List.eq_of_mem_replicate h0) (by decide)
  have hput : readlineKey farConsole ⟨m, ws, ⟨1, 1, 1⟩, 0, 0, true, []⟩ 0x62 =
      (⟨m.store 0 [0x62], ws ++ [(0, 1)], ⟨1, 1, 1⟩, 1, 1, true, []⟩, none) := rfl
  obtain ⟨ws₁, hend⟩ := end_keeps (ws ++ [(0, 1)]) ⟨1, 1, 1⟩
    (holds_store m 0 [0x62]) (by simp) (by simp) (fun c hc => by cases hc; decide) (by simp)
  set m₃ := ((m.store 0 [0x62]).store [(0x62 : UInt8)].length [0]).store (1000 + 1 * 256)
    ([0x62] ++ [0]) with hm₃
  have hslot : Holds m₃ 1256 ([0x62] ++ [0]) := holds_store _ 1256 _
  have hbuf : Holds m₃ 0 ([0x62] ++ [0]) :=
    ((holds_store m 0 [0x62]).splice le_rfl [0]).store (.inl (by decide))
  have hlong : Holds m₃ 1000 overlong :=
    ((hm.store (.inr (by decide))).store (.inr (by decide))).store (.inl (by rw [hlen]))
  have hnewest : histPrev farConsole m₃ ⟨2, 2, 2⟩ = (some [0x62], ⟨2, 2, 1⟩) := by
    rw [← takeWhile_clean (s := [0x62]) (by decide), ← cstr_eq hslot (by decide)]
    rfl
  obtain ⟨ws₂, num₂, hprev₂⟩ := prev_recalls ws₁ 0 0 hnewest (by decide)
    (by decide)
  set m₄ := m₃.store 0 ([0x62] ++ [0]) with hm₄
  have hrun : Holds m₄ 1000 (overlong ++ [0x62] ++ [0]) := by
    rw [List.append_assoc, holds_append, hlen]
    exact ⟨hlong.store (.inr (by decide)), hslot.store (.inr (by decide))⟩
  have hclean' : 0 ∉ overlong ++ [0x62] := by
    rw [List.mem_append, not_or]
    exact ⟨hclean, by decide⟩
  have hlen' : (overlong ++ [0x62]).length = 257 := by
    rw [List.length_append, hlen]
    rfl
  have holder : histPrev farConsole m₄ ⟨2, 2, 1⟩ = (some (overlong ++ [0x62]), ⟨2, 2, 0⟩) := by
    rw [← takeWhile_clean hclean', ← cstr_eq hrun (by omega)]
    rfl
  obtain ⟨ws₃, num₃, hprev₃⟩ := prev_recalls ws₂ num₂ 1 holder hclean'
    (by omega)
  have hret : m₃.load 0 2 = [0x62, 0] := hbuf
  change _ = ((⟨m₃, ws₁, ⟨2, 2, 2⟩, 0, 0, true, []⟩ : Cread), some ((1 : ℤ), m₃.load 0 2)) at hend
  simp only [List.length_cons, List.length_nil, Nat.zero_add] at hend hprev₂
  rw [hret] at hend
  simp only [readlineKeys, hput, hend, hprev₂, hprev₃, hlen']
  exact ⟨rfl, trivial⟩

/-- Letters for which there is room. -/
theorem typing_fits (past : List (List UInt8)) (back : ℕ) : ∀ (n : ℕ) (text : List UInt8),
    text.length + n ≤ lineMax →
      Editor.Fits ⟨text, text.length, true, [], past, back⟩ (List.replicate n 0x61) ∧
        Editor.keys ⟨text, text.length, true, [], past, back⟩ (List.replicate n 0x61) =
          (⟨text ++ List.replicate n 0x61, text.length + n, true, [], past, back⟩, [])
  | 0, text, _ => ⟨trivial, by rw [List.replicate_zero, List.append_nil]; rfl⟩
  | n + 1, text, hn => by
    have hshort : ¬Editor.Refuses ⟨text, text.length, true, [], past, back⟩ := fun hr => by
      have hfull : lineMax ≤ text.length := hr.2
      omega
    have hgrows : Editor.Grows ⟨text, text.length, true, [], past, back⟩ := .inl rfl
    have hnext : Editor.key ⟨text, text.length, true, [], past, back⟩ 0x61 =
        (⟨text ++ [0x61], (text ++ [0x61]).length, true, [], past, back⟩, none) := by
      change (Editor.put 0x61 ⟨text, text.length, true, [], past, back⟩, none) = _
      rw [Editor.put, if_neg hshort, if_pos hgrows]
      simp
    have hlen : (text ++ [(0x61 : UInt8)]).length = text.length + 1 := List.length_append
    obtain ⟨hfit, hkeys⟩ := typing_fits past back n (text ++ [0x61]) (by omega)
    rw [List.replicate_succ]
    refine ⟨⟨hshort, ?_⟩, ?_⟩
    · rw [hnext]
      exact hfit
    · rw [Editor.keys, hnext]
      dsimp only
      rw [hkeys, hlen, List.append_assoc, List.singleton_append, Nat.add_assoc, Nat.add_comm 1 n]
      rfl

theorem readlineKeys_append {cm : ConsoleMem} : ∀ (ks ks' : List UInt8) (s : Cread),
    readlineKeys cm s (ks ++ ks') = ((readlineKeys cm (readlineKeys cm s ks).1 ks').1,
      (readlineKeys cm s ks).2 ++ (readlineKeys cm (readlineKeys cm s ks).1 ks').2)
  | [], _, _ => rfl
  | k :: ks, ks', s => by
    rw [List.cons_append, readlineKeys, readlineKeys_append ks ks', readlineKeys]
    dsimp only
    rw [List.append_assoc]

theorem overlong_entered : ∃ m ws,
    readlineKeys farConsole (readlineStart farConsole fun _ => 0) (overlong ++ ['\n'.toUInt8]) =
        (⟨m, ws, ⟨1, 1, 1⟩, 0, 0, true, []⟩, [(256, overlong ++ [0])]) ∧ Holds m 1000 overlong := by
  have hlen : overlong.length = 256 := List.length_replicate
  have hclean : 0 ∉ overlong := fun h0 => absurd (List.eq_of_mem_replicate h0) (by decide)
  have hsplit : overlong = List.replicate 255 0x61 ++ [0x61] := List.replicate_succ'
  obtain ⟨hfit, hkeys⟩ := typing_fits [] 0 255 [] le_rfl
  obtain ⟨hlines, hf⟩ := readlineKeys_follows (readlineStart_follows farConsole fun _ => 0) hfit
  rw [show editorStart = ⟨[], [].length, true, [], [], 0⟩ from rfl, hkeys] at hlines hf
  have htyped : readlineKeys farConsole (readlineStart farConsole fun _ => 0)
      (overlong ++ ['\n'.toUInt8]) = readlineKeys farConsole (readlineKeys farConsole
        (readlineStart farConsole fun _ => 0) (List.replicate 255 0x61)).1
          [0x61, '\n'.toUInt8] := by
    rw [hsplit, List.append_assoc, readlineKeys_append, hlines, List.nil_append,
      List.singleton_append]
  rw [htyped]
  generalize (readlineKeys farConsole (readlineStart farConsole fun _ => 0)
    (List.replicate 255 0x61)).1 = s at hf
  obtain ⟨m, ws, ⟨max, add, cur⟩, num, eolNum, ins, esc⟩ := s
  obtain rfl : num = 255 := hf.num
  obtain rfl : eolNum = 255 := by
    rw [show eolNum = _ from hf.eolNum, List.nil_append, List.length_replicate]
  obtain rfl : ins = true := hf.insert
  obtain rfl : esc = [] := hf.esc
  obtain rfl : max = 0 := hf.sound.kept.max_eq
  obtain rfl : add = 0 := Nat.le_zero.1 hf.sound.kept.addIdx_le
  have hbuf : Holds m 0 (List.replicate 255 0x61) := hf.buf
  have hfull : Holds (m.store 255 [0x61]) 0 overlong := by
    rw [hsplit, holds_append, List.length_replicate]
    exact ⟨hbuf.store (.inl (by rw [List.length_replicate])), holds_store m 255 _⟩
  have hput : readlineKey farConsole ⟨m, ws, ⟨0, 0, cur⟩, 255, 255, true, []⟩ 0x61 =
      (⟨m.store 255 [0x61], ws ++ [(255, 1)], ⟨0, 0, cur⟩, 256, 256, true, []⟩, none) := by
    change (creadAddChar farConsole 0x61 maxCmdbufSize _, none) = _
    simp [creadAddChar, Cread.moveUp, Cread.write, maxCmdbufSize, farConsole]
  obtain ⟨ws', hend⟩ := end_keeps (ws ++ [(255, 1)]) ⟨0, 0, cur⟩ hfull
    (by omega) hclean (fun c hc => by cases hc; decide) (List.ne_nil_of_length_pos (by omega))
  have hload : ((m.store 255 [0x61]).store 256 [0]).store (1000 + 0 * 256) (overlong ++ [0]) =
      ((m.store 255 [0x61]).store 256 [0]).store 1000 (overlong ++ [0]) := rfl
  rw [hlen, hload] at hend
  set m₁ := ((m.store 255 [0x61]).store 256 [0]).store 1000 (overlong ++ [0]) with hm₁
  have hslot : Holds m₁ 1000 (overlong ++ [0]) := holds_store _ 1000 _
  rw [holds_append] at hslot
  have hret : m₁.load 0 257 = overlong ++ [0] := by
    have hline : Holds ((m.store 255 [0x61]).store 256 [0]) 0 (overlong ++ [0]) := by
      rw [holds_append, hlen]
      exact ⟨hfull.store (.inl (by rw [hlen])), holds_store _ 256 _⟩
    have hkept : Holds m₁ 0 (overlong ++ [0]) := hline.store (.inl (by simp [hlen]))
    rwa [Holds, List.length_append, hlen] at hkept
  have hnext : (⟨0, 0, cur⟩ : Hist).advance = ⟨1, 1, cur⟩ := rfl
  simp only [hnext, Nat.reduceAdd, hret, Nat.cast_ofNat, Nat.cast_one] at hend
  refine ⟨m₁, ws', ?_, hslot.1⟩
  simp only [readlineKeys, hput, hend]
  rfl

theorem historyLine_overlong : historyLine (256, overlong ++ [0]) = some overlong := by
  have hlen : overlong.length = 256 := List.length_replicate
  have hclean : 0 ∉ overlong := fun h0 => absurd (List.eq_of_mem_replicate h0) (by decide)
  have hhead : ¬(overlong = [] ∨ overlong.head? = some '!'.toUInt8) := by
    rintro (hnil | hmark)
    · rw [hnil] at hlen
      exact absurd hlen (by decide)
    · exact absurd (Option.some.inj hmark) (by decide)
  have h := historyLine_entered overlong
  rwa [hlen, takeWhile_clean hclean, if_neg hhead] at h

/-- What is shown two lines back is longer than the line that was entered. -/
theorem history_longer {s : Cread} {long : List UInt8} (hlen : long.length = 256)
    (hkept : historyLine (256, long ++ [0]) = some long)
    (hrun : readlineKeys farConsole (readlineStart farConsole fun _ => 0)
      (long ++ ['\n'.toUInt8]) = (s, [(256, long ++ [0])]))
    (hline : (readlineKeys farConsole s [0x62, '\n'.toUInt8]).2 = [(1, [0x62, 0])])
    (heol : (readlineKeys farConsole s
      [0x62, '\n'.toUInt8, ctlCh 'p', ctlCh 'p']).1.eolNum = 257) :
    ¬HistoryRight farConsole (fun _ => 0) (long ++ ['\n'.toUInt8] ++ [0x62, '\n'.toUInt8]) := by
  have hpast : historyLines (readlineKeys farConsole (readlineStart farConsole fun _ => 0)
      (long ++ ['\n'.toUInt8] ++ [0x62, '\n'.toUInt8])).2 = [[0x62], long] := by
    rw [readlineKeys_append, hrun, hline, historyLines, List.filterMap_append,
      List.filterMap_cons_some hkept]
    rfl
  intro h
  have hshown := h [[ctlCh 'p'], [ctlCh 'p']] [] (by decide) (by decide)
  dsimp only at hshown
  have hpresses : [0x62, '\n'.toUInt8] ++ ([[ctlCh 'p'], [ctlCh 'p']].flatten ++ [].flatten) =
      [0x62, '\n'.toUInt8, ctlCh 'p', ctlCh 'p'] := rfl
  rw [hpast, List.append_assoc, List.append_assoc, readlineKeys_append, hrun, hpresses] at hshown
  have hload := congrArg List.length hshown
  have hback : (lineBack [[0x62], long] (min [[ctlCh 'p'], [ctlCh 'p']].length
      [[0x62], long].length - ([] : List (List UInt8)).length)).length = long.length := rfl
  rw [Mem.length_load, hback, hlen, heol] at hload
  exact absurd hload (by decide)

/-- Once another line is entered, the overlong line is shown with that one behind it. -/
theorem history_overlong :
    ¬HistoryRight farConsole (fun _ => 0) (overlong ++ ['\n'.toUInt8] ++ [0x62, '\n'.toUInt8]) := by
  obtain ⟨m, ws, hrun, hslot⟩ := overlong_entered
  obtain ⟨hline, heol⟩ := overlong_recalled hslot ws
  exact history_longer List.length_replicate historyLine_overlong hrun hline heol

end Overlong

end InfotmUboot

import Mathlib.Tactic

/-!
# Framing a stream

A framer looks at the front of a stream and gives a verdict: wait for more, skip one element (with a reason), or take a frame
of `n` elements. A verdict other than `wait` does not change when more of the stream arrives (`stable`); this is all that is
needed for scanning a stream piece by piece to give what scanning it at once gives (`scan_append`), wherever it is cut.

`Visits` names the offsets a scan stands on. From a visited offset on, the scan is the scan of the rest (`scan_of_visits`), so
a scan that has lost its place is in step again as soon as it visits the start of a frame.
-/

namespace Framing

/-- What a framer makes of the front of a stream. -/
inductive Verdict (ρ : Type*) where
  | wait
  | skip (why : ρ)
  | take (n : Nat)
  deriving DecidableEq, Repr

variable {ρ α : Type*}

/-- How far a verdict moves the scan on, `none` when it waits. -/
def Verdict.advance : Verdict ρ → Option Nat
  | .wait => none
  | .skip _ => some 1
  | .take n => some n

theorem Verdict.advance_eq_none {v : Verdict ρ} : v.advance = none ↔ v = .wait := by
  cases v <;> simp [Verdict.advance]

/-- A framer: verdicts that move on by at least one element and by no more than there are, and that do not change when the
stream grows. -/
structure Framer (ρ α : Type*) where
  verdict : List α → Verdict ρ
  advance_pos : ∀ {bs : List α} {n : Nat}, (verdict bs).advance = some n → 0 < n
  advance_le : ∀ {bs : List α} {n : Nat}, (verdict bs).advance = some n → n ≤ bs.length
  stable : ∀ {bs : List α} (cs : List α), verdict bs ≠ .wait → verdict (bs ++ cs) = verdict bs

/-- A piece of a scanned stream: the verdict, and the elements it moved past. -/
structure Piece (ρ α : Type*) where
  verdict : Verdict ρ
  bytes : List α

namespace Framer

variable (F : Framer ρ α)

/-- The scan with a bound on the number of pieces. -/
def scanAux : Nat → List α → List (Piece ρ α) × List α
  | 0, bs => ([], bs)
  | k + 1, bs =>
    match (F.verdict bs).advance with
    | none => ([], bs)
    | some n =>
      let r := scanAux k (bs.drop n)
      (⟨F.verdict bs, bs.take n⟩ :: r.1, r.2)

/-- The scan of a stream: its pieces, and what is left when the framer waits. Each piece holds at least one element, so the
length of the stream bounds their number. -/
def scan (bs : List α) : List (Piece ρ α) × List α := F.scanAux bs.length bs

/-- The offsets a scan stands on. -/
inductive Visits (bs : List α) : Nat → Prop where
  | start : Visits bs 0
  | next {j n : Nat} : Visits bs j → (F.verdict (bs.drop j)).advance = some n → Visits bs (j + n)

/-! ## The scan, one piece at a time -/

variable {F}

/-- On an empty stream a framer waits. -/
theorem advance_nil : (F.verdict []).advance = none := by
  cases h : (F.verdict []).advance with
  | none => rfl
  | some n =>
    have h1 := F.advance_pos h
    have h2 := F.advance_le h
    simp only [List.length_nil] at h2
    omega

theorem scanAux_nil (k : Nat) : F.scanAux k [] = ([], []) := by
  cases k with
  | zero => rfl
  | succ k => simp [scanAux, advance_nil]

/-- Any bound that is at least the length of the stream gives the same scan. -/
theorem scanAux_eq {k l : Nat} {bs : List α} (hk : bs.length ≤ k) (hl : bs.length ≤ l) :
    F.scanAux k bs = F.scanAux l bs := by
  induction k generalizing l bs with
  | zero =>
    rw [List.eq_nil_of_length_eq_zero (Nat.le_zero.mp hk), scanAux_nil, scanAux_nil]
  | succ k ih =>
    cases l with
    | zero => rw [List.eq_nil_of_length_eq_zero (Nat.le_zero.mp hl), scanAux_nil, scanAux_nil]
    | succ l =>
      cases h : (F.verdict bs).advance with
      | none => simp [scanAux, h]
      | some n =>
        have h1 := F.advance_pos h
        have hd : (bs.drop n).length = bs.length - n := List.length_drop
        simp only [scanAux, h]
        rw [ih (l := l) (by omega) (by omega)]

/-- Where the framer waits, nothing is scanned. -/
theorem scan_wait {bs : List α} (h : F.verdict bs = .wait) : F.scan bs = ([], bs) := by
  unfold scan
  cases bs.length with
  | zero => rfl
  | succ k => simp [scanAux, h, Verdict.advance]

/-- Where the framer moves on, the scan is the piece it moves past and the scan of the rest. -/
theorem scan_advance {bs : List α} {n : Nat} (h : (F.verdict bs).advance = some n) :
    F.scan bs = (⟨F.verdict bs, bs.take n⟩ :: (F.scan (bs.drop n)).1, (F.scan (bs.drop n)).2) := by
  have h1 := F.advance_pos h
  have h2 := F.advance_le h
  have hd : (bs.drop n).length = bs.length - n := List.length_drop
  unfold scan
  cases hlen : bs.length with
  | zero => omega
  | succ k =>
    simp only [scanAux, h]
    rw [scanAux_eq (by omega : (bs.drop n).length ≤ k) (Nat.le_refl _)]

/-- Each piece holds at least one element. -/
theorem length_scan_le (bs : List α) : (F.scan bs).1.length ≤ bs.length := by
  have haux : ∀ k bs, (F.scanAux k bs).1.length ≤ k := by
    intro k
    induction k with
    | zero => exact fun _ => Nat.le_refl 0
    | succ k ih =>
      intro bs
      unfold scanAux
      split
      · exact Nat.zero_le _
      · exact Nat.succ_le_succ (ih _)
  exact haux _ bs

/-- Induction along the scan of a stream. -/
theorem scan_induction {P : List α → Prop} (hw : ∀ bs, F.verdict bs = .wait → P bs)
    (ha : ∀ bs n, (F.verdict bs).advance = some n → P (bs.drop n) → P bs) (bs : List α) : P bs := by
  induction hl : bs.length using Nat.strongRecOn generalizing bs with
  | _ l ih =>
    cases h : (F.verdict bs).advance with
    | none => exact hw bs (Verdict.advance_eq_none.mp h)
    | some n =>
      have h1 := F.advance_pos h
      have h2 := F.advance_le h
      exact ha bs n h (ih _ (by rw [List.length_drop]; omega) (bs.drop n) rfl)

/-- A verdict that moves on stays when the stream grows. -/
theorem advance_append {bs : List α} {n : Nat} (cs : List α) (h : (F.verdict bs).advance = some n) :
    F.verdict (bs ++ cs) = F.verdict bs := by
  apply F.stable
  intro hw
  rw [hw] at h
  cases h

/-- Scanning a stream that has grown: the pieces scanned so far stand, and the scan goes on from what was left. -/
theorem scan_append (bs cs : List α) :
    F.scan (bs ++ cs) = ((F.scan bs).1 ++ (F.scan ((F.scan bs).2 ++ cs)).1, (F.scan ((F.scan bs).2 ++ cs)).2) := by
  induction bs using scan_induction (F := F) with
  | hw bs h => simp [scan_wait h]
  | ha bs n h ih =>
    have hv := advance_append cs h
    have hn := F.advance_le h
    have h' : (F.verdict (bs ++ cs)).advance = some n := by rw [hv]; exact h
    rw [scan_advance h', scan_advance h, hv, List.take_append_of_le_length hn, List.drop_append_of_le_length hn, ih]
    rfl

/-- A stream of whole frames is scanned frame by frame, whatever follows it. -/
theorem scan_frames {ws : List (List α)} (hws : ∀ w ∈ ws, F.verdict w = .take w.length) (cs : List α) :
    F.scan (ws.flatten ++ cs) = (ws.map (fun w => ⟨.take w.length, w⟩) ++ (F.scan cs).1, (F.scan cs).2) := by
  induction ws with
  | nil => simp
  | cons w ws ih =>
    have hw := hws w (by simp)
    have hv : F.verdict (w ++ (ws.flatten ++ cs)) = .take w.length := by
      rw [F.stable _ (by rw [hw]; simp), hw]
    have ha : (F.verdict (w ++ (ws.flatten ++ cs))).advance = some w.length := by rw [hv]; rfl
    rw [List.flatten_cons, List.append_assoc, scan_advance ha, hv, List.take_left, List.drop_left,
      ih (fun x hx => hws x (by simp [hx]))]
    rfl

/-- A stream of whole frames is cut into frames in one way: where one such stream is the front of another, its frames are. -/
theorem frames_prefix {ws vs : List (List α)} (hws : ∀ w ∈ ws, F.verdict w = .take w.length)
    (hvs : ∀ v ∈ vs, F.verdict v = .take v.length) (h : ws.flatten <+: vs.flatten) : ws <+: vs := by
  obtain ⟨cs, hcs⟩ := h
  have hws' := scan_frames hws cs
  have hvs' := scan_frames hvs []
  rw [List.append_nil, ← hcs, hws', scan_wait (Verdict.advance_eq_none.mp advance_nil), List.append_nil] at hvs'
  have hpieces := congrArg (List.map Piece.bytes) (congrArg Prod.fst hvs')
  simp only [List.map_append, List.map_map] at hpieces
  have hid : ∀ us : List (List α), us.map (Piece.bytes ∘ fun w => (⟨.take w.length, w⟩ : Piece ρ α)) = us := by
    intro us
    exact List.map_id us
  rw [hid, hid] at hpieces
  exact ⟨_, hpieces⟩

/-! ## Visited offsets and placed frames -/

/-- The frames among the pieces, each with the offset it starts at. -/
def placed : Nat → List (Piece ρ α) → List (Nat × List α)
  | _, [] => []
  | off, p :: ps =>
    match p.verdict with
    | .take _ => (off, p.bytes) :: placed (off + p.bytes.length) ps
    | _ => placed (off + p.bytes.length) ps

/-- The number of elements a list of pieces covers. -/
def span (ps : List (Piece ρ α)) : Nat := (ps.map (fun p => p.bytes.length)).sum

theorem placed_append (off : Nat) (ps qs : List (Piece ρ α)) :
    placed off (ps ++ qs) = placed off ps ++ placed (off + span ps) qs := by
  induction ps generalizing off with
  | nil => simp [placed, span]
  | cons p ps ih =>
    have hs : off + p.bytes.length + span ps = off + span (p :: ps) := by simp [span]; omega
    cases hv : p.verdict <;> simp [placed, hv, ih, hs]

/-- Placing the pieces further on moves every frame on. -/
theorem placed_shift (off d : Nat) (ps : List (Piece ρ α)) :
    placed (off + d) ps = (placed off ps).map (fun x => (x.1 + d, x.2)) := by
  induction ps generalizing off with
  | nil => rfl
  | cons p ps ih =>
    have hs : off + d + p.bytes.length = off + p.bytes.length + d := by omega
    cases hv : p.verdict <;> simp [placed, hv, hs, ih]

/-- Every piece of a scan holds at least one element. -/
theorem scan_piece_pos {bs : List α} {p : Piece ρ α} (h : p ∈ (F.scan bs).1) : 0 < p.bytes.length := by
  induction bs using scan_induction (F := F) with
  | hw bs hw =>
    rw [scan_wait hw] at h
    cases h
  | ha bs n ha ih =>
    rw [scan_advance ha] at h
    rcases List.mem_cons.mp h with rfl | h
    · have hpos := F.advance_pos ha
      have hle := F.advance_le ha
      rw [List.length_take]
      omega
    · exact ih h

/-- Frames placed behind an offset stand at it or further on. -/
theorem le_of_mem_placed {off : Nat} {ps : List (Piece ρ α)} {x : Nat × List α} (h : x ∈ placed off ps) : off ≤ x.1 := by
  rw [← Nat.zero_add off, placed_shift, List.mem_map] at h
  obtain ⟨y, -, rfl⟩ := h
  exact Nat.le_add_left _ _

/-- The placed frames of non-empty pieces stand in order. -/
theorem pairwise_placed {off : Nat} {ps : List (Piece ρ α)} (h : ∀ p ∈ ps, 0 < p.bytes.length) :
    (placed off ps).Pairwise fun x y => x.1 < y.1 := by
  induction ps generalizing off with
  | nil => exact .nil
  | cons p ps ih =>
    have hp := h p List.mem_cons_self
    have hrest : (placed (off + p.bytes.length) ps).Pairwise fun x y => x.1 < y.1 :=
      ih fun q hq => h q (List.mem_cons_of_mem p hq)
    cases hv : p.verdict with
    | wait => simpa only [placed, hv] using hrest
    | skip why => simpa only [placed, hv] using hrest
    | take n =>
      simp only [placed, hv]
      refine .cons (fun x hx => ?_) hrest
      have hle := le_of_mem_placed hx
      dsimp only
      omega

/-- From a visited offset on, the scan is the scan of the rest. -/
theorem scan_of_visits {bs : List α} {r : Nat} (h : F.Visits bs r) :
    ∃ pre, F.scan bs = (pre ++ (F.scan (bs.drop r)).1, (F.scan (bs.drop r)).2) ∧ span pre = r := by
  induction h with
  | start => exact ⟨[], by simp, rfl⟩
  | @next j n _ ha ih =>
    obtain ⟨pre, hs, hp⟩ := ih
    have hn := F.advance_le ha
    refine ⟨pre ++ [⟨F.verdict (bs.drop j), (bs.drop j).take n⟩], ?_, ?_⟩
    · rw [hs, scan_advance ha, List.drop_drop]
      simp
    · simp only [span, List.map_append, List.sum_append, List.map_cons, List.map_nil, List.sum_cons, List.sum_nil,
        List.length_take, Nat.min_eq_left hn]
      simp only [span] at hp
      omega

/-- What a scan of the rest visits, the scan of the whole visits further on. -/
theorem Visits.trans {bs : List α} {r j : Nat} (h : F.Visits bs r) (h' : F.Visits (bs.drop r) j) :
    F.Visits bs (r + j) := by
  induction h' with
  | start => exact h
  | @next j n _ ha ih =>
    rw [List.drop_drop] at ha
    rw [← Nat.add_assoc]
    exact .next ih ha

/-- Where every offset in front of `r` leads to one that is not behind `r`, the scan comes to stand on `r`. -/
theorem visits_of_within {bs : List α} {r : Nat} (h : ∀ j < r, ∃ n, (F.verdict (bs.drop j)).advance = some n ∧ j + n ≤ r) :
    F.Visits bs r := by
  have hgo : ∀ d j, j + d = r → F.Visits bs j → F.Visits bs r := by
    intro d
    induction d using Nat.strongRecOn with
    | _ d ih =>
      intro j hd hvis
      rcases Nat.eq_zero_or_pos d with rfl | hpos
      · rw [Nat.add_zero] at hd
        exact hd ▸ hvis
      · obtain ⟨n, hn, hle⟩ := h j (by omega)
        have hstep := F.advance_pos hn
        exact ih (d - n) (by omega) (j + n) (by omega) (.next hvis hn)
  exact hgo r 0 (Nat.zero_add r) .start

/-- Where every offset in front of `r` is skipped, the frames of the scan are those of the rest. -/
theorem placed_of_skips {bs : List α} {r : Nat} (h : ∀ j < r, ∃ why, F.verdict (bs.drop j) = .skip why) (off : Nat) :
    placed off (F.scan bs).1 = placed (off + r) (F.scan (bs.drop r)).1 := by
  induction r generalizing bs off with
  | zero => rfl
  | succ r ih =>
    obtain ⟨why, hv⟩ := h 0 (Nat.succ_pos r)
    rw [List.drop_zero] at hv
    have ha : (F.verdict bs).advance = some 1 := by rw [hv]; rfl
    have hlen : (bs.take 1).length = 1 := by
      rw [List.length_take]
      exact Nat.min_eq_left (F.advance_le ha)
    have hrest : ∀ j < r, ∃ why, F.verdict ((bs.drop 1).drop j) = .skip why := by
      intro j hj
      rw [List.drop_drop, Nat.add_comm]
      exact h (j + 1) (Nat.succ_lt_succ hj)
    rw [scan_advance ha, hv, placed, hlen, ih hrest, List.drop_drop, Nat.add_assoc, Nat.add_comm 1 r]

/-- A frame at a visited offset is among the placed frames. -/
theorem mem_placed_of_visits {bs : List α} {j n : Nat} (h : F.Visits bs j) (hv : F.verdict (bs.drop j) = .take n) :
    (j, (bs.drop j).take n) ∈ placed 0 (F.scan bs).1 := by
  obtain ⟨pre, hs, hp⟩ := scan_of_visits h
  have ha : (F.verdict (bs.drop j)).advance = some n := by rw [hv]; rfl
  rw [hs, placed_append, scan_advance ha, hp, hv]
  simp [placed]

/-- A placed frame stands at an offset the scan visits. -/
theorem visits_of_mem_placed {bs : List α} {j : Nat} {w : List α} (h : (j, w) ∈ placed 0 (F.scan bs).1) :
    F.Visits bs j ∧ ∃ n, F.verdict (bs.drop j) = .take n ∧ w = (bs.drop j).take n := by
  induction bs using scan_induction (F := F) generalizing j w with
  | hw bs hw => rw [scan_wait hw] at h; simp [placed] at h
  | ha bs n ha ih =>
    have hn := F.advance_le ha
    -- the later frames are placed frames of the rest, `n` further on
    have hrest : (j, w) ∈ placed n (F.scan (bs.drop n)).1 →
        F.Visits bs j ∧ ∃ n, F.verdict (bs.drop j) = .take n ∧ w = (bs.drop j).take n := by
      intro hm
      rw [← Nat.zero_add n, placed_shift, Nat.zero_add, List.mem_map] at hm
      obtain ⟨⟨i, u⟩, hi, he⟩ := hm
      obtain ⟨rfl, rfl⟩ := Prod.mk.inj he
      obtain ⟨hvis, m, hm, hu⟩ := ih hi
      have hstart : F.Visits bs n := by
        rw [← Nat.zero_add n]
        exact .next .start ha
      have hvis' := hstart.trans hvis
      rw [List.drop_drop] at hm hu
      rw [Nat.add_comm i n]
      exact ⟨hvis', m, hm, hu⟩
    rw [scan_advance ha] at h
    cases hv : F.verdict bs with
    | wait => rw [hv] at ha; cases ha
    | skip why =>
      simp only [placed, hv, List.length_take, Nat.min_eq_left hn, Nat.zero_add] at h
      exact hrest h
    | take m =>
      have hmn : m = n := by rw [hv] at ha; exact Option.some.inj ha
      subst hmn
      simp only [placed, hv, List.length_take, Nat.min_eq_left hn, Nat.zero_add, List.mem_cons, Prod.mk.injEq] at h
      rcases h with ⟨rfl, rfl⟩ | h
      · exact ⟨.start, m, by simpa using hv, by simp⟩
      · exact hrest h

end Framer

/-- What stands in order in two lists, and is all in the second, is a sublist of it. -/
theorem sublist_of_placed {β : Type*} {l l' : List (Nat × β)} (hl : l.Pairwise fun x y => x.1 < y.1)
    (hl' : l'.Pairwise fun x y => x.1 < y.1) (h : l ⊆ l') : l.Sublist l' := by
  have hanti : Std.Antisymm fun x y : Nat × β => x.1 < y.1 := ⟨fun _ _ hxy hyx => absurd hxy (Nat.lt_asymm hyx)⟩
  have hnodup : l.Nodup := hl.imp fun hlt he => absurd hlt (by rw [he]; exact Nat.lt_irrefl _)
  exact List.sublist_of_subperm_of_pairwise (List.subperm_of_subset hnodup h) hl hl'

end Framing

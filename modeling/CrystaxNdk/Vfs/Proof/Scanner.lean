import CrystaxNdk.Vfs.Futils

/-!
# The scanner of `normalize`

After each part of a relative path, the buffer of `normalize` holds the course of a walk. `Scan` is
that walk. It is not always the one that the path describes: when `..` is written over `.`, the
scanner takes the buffer for one character longer than it is, and if the next move is up again, it
does not recognise the `..` and takes it for a name.

After each part of an absolute path the buffer holds a directory.
-/

namespace CrystaxNdk.Vfs

open Lib List

/-! ## The buffer -/

section Strrchr

variable {c : Char} {s t : CString}

theorem strrchr_eq_none (h : c ∉ s) : strrchr c s = none := by
  induction s with
  | nil => rfl
  | cons x xs ih =>
    simp only [mem_cons, not_or] at h
    simp [strrchr, ih h.2, Ne.symm h.1]

theorem strrchr_append (h : c ∉ t) : strrchr c (s ++ c :: t) = some s.length := by
  induction s with
  | nil => simp [strrchr, strrchr_eq_none h]
  | cons x xs ih => simp [strrchr, ih]

theorem eq_dot_of_getElem? (hlen : s.length ≤ 1) (h0 : s[0]? = some '.') : s = ['.'] := by
  rcases s with _ | ⟨x, _ | ⟨y, rest⟩⟩ <;> simp_all

theorem eq_dots_of_getElem? (hlen : s.length ≤ 2) (h0 : s[0]? = some '.')
    (h1 : s[1]? = some '.') : s = ['.', '.'] := by
  rcases s with _ | ⟨x, _ | ⟨y, _ | ⟨z, rest⟩⟩⟩ <;> simp_all

end Strrchr

namespace Buf

def checked (b : Buf) : Except Fault Buf :=
  if b.buf.length ≤ pathMax then .ok b else .error .overrun

theorem strcat_eq (b : Buf) (s : CString) :
    b.strcat s = checked ⟨b.buf ++ s, b.buflen + s.length⟩ := rfl

theorem checked_of_le {b : Buf} (h : b.buf.length ≤ pathMax) : b.checked = .ok b := if_pos h

theorem strcat_strcat (b : Buf) (s t : CString) :
    (b.strcat s >>= fun b => b.strcat t) = b.strcat (s ++ t) := by
  unfold strcat
  simp only [length_append]
  split_ifs with hs hst
  · simp [hst, bind, Except.bind, Nat.add_assoc]
  · simpa [bind, Except.bind, Nat.add_assoc] using hst
  · omega
  · rfl

section Ends

variable {b : Buf} {front last : CString}

/-- `buflen` is the length of the buffer, or one more. -/
def Slack (b : Buf) : Prop := b.buflen = b.buf.length ∨ b.buflen = b.buf.length + 1

theorem dotDot_of_slash (hbuf : b.buf = front ++ '/' :: last) (hslack : b.Slack)
    (hslash : '/' ∉ last) (hdots : last ≠ ['.', '.']) (hfront : front ≠ []) :
    b.dotDot = .ok ⟨front, front.length⟩ := by
  have hlength := congrArg List.length hbuf
  simp only [length_append, length_cons] at hlength
  have hpos : b.buflen ≠ 0 := by rcases hslack with heq | heq <;> omega
  have hfront' : front.length ≠ 0 := by simpa using hfront
  have hnot : ¬(b.buflen = front.length + 3 ∧ b.buf[front.length]? = some '/' ∧
      b.buf[front.length + 1]? = some '.' ∧ b.buf[front.length + 2]? = some '.') := by
    rintro ⟨hlen, -, h0, h1⟩
    rw [hbuf, getElem?_append_right (by omega)] at h0 h1
    refine hdots (eq_dots_of_getElem? ?_ (by simpa using h0) (by simpa using h1))
    rcases hslack with heq | heq <;> omega
  have hstrrchr : strrchr '/' b.buf = some front.length := by
    rw [hbuf, strrchr_append hslash]
  unfold dotDot
  simp only [if_neg hpos, hstrrchr, hfront', false_and, if_false, if_neg hnot]
  simp [hbuf]

theorem name_of_last {name : CString} (hbuf : b.buf = front ++ last) (hslack : b.Slack)
    (hslash : '/' ∉ last) (hnil : last ≠ []) (hdot : ¬(b.buflen = 1 ∧ b.buf[0]? = some '.')) :
    b.name name = checked ⟨b.buf ++ '/' :: name, b.buflen + (name.length + 1)⟩ := by
  have hpos : 0 < b.buflen := by
    have hlast := length_pos_of_ne_nil hnil
    have hlength := congrArg List.length hbuf
    simp only [length_append] at hlength
    rcases hslack with heq | heq <;> omega
  have hend : b.buf[b.buflen - 1]? ≠ some '/' := by
    rcases hslack with heq | heq
    · have hlast : b.buf.getLast? = last.getLast? := by
        simp [hbuf, getLast?_eq_some_getLast hnil]
      rw [heq, ← getLast?_eq_getElem?, hlast]
      exact fun hmem => hslash (mem_of_getLast? hmem)
    · simp [heq]
  unfold Buf.name
  simp only [if_neg hdot, if_pos (And.intro hpos hend)]
  exact strcat_strcat b ['/'] name

end Ends

end Buf

theorem exists_join_eq {names : List CString} (h : names ≠ []) :
    ∃ front last, last ∈ names ∧ join names = front ++ last := by
  obtain ⟨init, last, rfl⟩ := (eq_nil_or_concat' names).resolve_left h
  rcases eq_or_ne init [] with rfl | hne
  · exact ⟨[], last, by simp, by simp⟩
  · exact ⟨join init ++ ['/'], last, by simp, by simp [join_concat hne]⟩

/-! ## The loop -/

/-- After each part of `path` the buffer shows a state, which the part has changed by `step`, and
    holds its `text`. -/
structure Scanned {σ : Type} (path : CString) (shows : σ → Buf → Prop)
    (step : σ → Move CString → σ) (text : σ → CString) : Prop where
  buf : ∀ {s b}, shows s b → b.buf = text s
  part : ∀ {s b part}, shows s b → b.buf.length ≤ pathMax → '/' ∉ part → part.length ≤ nameMax →
    ∃ b', shows (step s (component part)) b' ∧ b.part path part = b'.checked

namespace Scanned

variable {σ : Type} {path : CString} {shows : σ → Buf → Prop} {step : σ → Move CString → σ}
  {text : σ → CString} {s : σ} {b : Buf} {ps : List CString}

/-- The loop ends if there is always room for what it writes. -/
theorem foldlM_part (h : Scanned path shows step text) (hshows : shows s b)
    (hslash : ∀ part ∈ ps, '/' ∉ part) (hlen : ∀ part ∈ ps, part.length ≤ nameMax)
    (hfits : ∀ n, (text (((ps.take n).map component).foldl step s)).length ≤ pathMax) :
    ∃ b', ps.foldlM (Buf.part path) b = .ok b' ∧ shows ((ps.map component).foldl step s) b' := by
  induction ps generalizing s b with
  | nil => exact ⟨b, rfl, hshows⟩
  | cons part ps ih =>
    simp only [mem_cons, forall_eq_or_imp] at hslash hlen
    have hroom : b.buf.length ≤ pathMax := by simpa [h.buf hshows] using hfits 0
    obtain ⟨b₁, hshows₁, hpart⟩ := h.part hshows hroom hslash.1 hlen.1
    have hroom₁ : b₁.buf.length ≤ pathMax := by simpa [h.buf hshows₁] using hfits 1
    rw [Buf.checked_of_le hroom₁] at hpart
    obtain ⟨b', hrest, hshows'⟩ := ih hshows₁ hslash.2 hlen.2 fun n => hfits (n + 1)
    exact ⟨b', by rw [foldlM_cons, hpart]; exact hrest, hshows'⟩

theorem fits_of_foldlM (h : Scanned path shows step text) (hshows : shows s b)
    (hroom : b.buf.length ≤ pathMax) (hslash : ∀ part ∈ ps, '/' ∉ part)
    (hlen : ∀ part ∈ ps, part.length ≤ nameMax) {b' : Buf}
    (hrun : ps.foldlM (Buf.part path) b = .ok b') (n : Nat) :
    (text (((ps.take n).map component).foldl step s)).length ≤ pathMax := by
  induction ps generalizing s b n with
  | nil => simpa [h.buf hshows] using hroom
  | cons part ps ih =>
    simp only [mem_cons, forall_eq_or_imp] at hslash hlen
    obtain ⟨b₁, hshows₁, hpart⟩ := h.part hshows hroom hslash.1 hlen.1
    rw [foldlM_cons, hpart] at hrun
    cases n with
    | zero => simpa [h.buf hshows] using hroom
    | succ n =>
      by_cases hroom₁ : b₁.buf.length ≤ pathMax
      · rw [Buf.checked_of_le hroom₁] at hrun
        exact ih hshows₁ hroom₁ hslash.2 hlen.2 hrun n
      · rw [Buf.checked, if_neg hroom₁] at hrun
        cases hrun

end Scanned

/-! ## Relative paths -/

/-- The walk that is in the buffer; `loose` if the buffer is `..`, written over `.`. -/
structure Scan where
  course : Course CString
  loose : Bool

namespace Scan

def step (s : Scan) : Move CString → Scan
  | .stay => s
  | .down name => ⟨s.course.move (.down name), false⟩
  | .up =>
    if s.course.downs ≠ [] then ⟨s.course.move .up, false⟩
    else if s.loose then ⟨.start, false⟩
    else ⟨s.course.move .up, s.course.ups = 0⟩

structure Shows (s : Scan) (b : Buf) : Prop where
  buf : b.buf = relative s.course
  tight : s.course.downs = [] → b.buflen = b.buf.length + s.loose.toNat
  slack : b.Slack
  loose : s.loose = true → s.course = ⟨1, []⟩
  plain : ∀ name ∈ s.course.downs, Plain name

variable {s : Scan} {b : Buf}

theorem Shows.ne_nil (h : s.Shows b) : b.buf ≠ [] := by
  rw [h.buf]
  by_cases hcomps : comps s.course = []
  · simp [relative, comps_eq_nil.mp hcomps]
  · rw [relative_of_ne hcomps]
    exact join_ne_nil (fun _ hname => (mem_comps h.plain hname).1) hcomps

theorem Shows.buflen_pos (h : s.Shows b) : b.buflen ≠ 0 := by
  have hpos := length_pos_of_ne_nil h.ne_nil
  rcases h.slack with heq | heq <;> omega

theorem Shows.not_dot (h : s.Shows b) (hcomps : comps s.course ≠ []) :
    ¬(b.buflen = 1 ∧ b.buf[0]? = some '.') := by
  rintro ⟨hlen, hdot⟩
  have hbuf : b.buf = ['.'] := by
    refine eq_dot_of_getElem? ?_ hdot
    rcases h.slack with heq | heq <;> omega
  have hparts := parts_relative h.plain hcomps
  rw [← h.buf, hbuf] at hparts
  have hmem : ['.'] ∈ comps s.course := by
    rw [← hparts]
    decide
  exact (mem_comps h.plain hmem).2.1 rfl

theorem Shows.dotDot_of_ne (h : s.Shows b) (hfits : b.buf.length ≤ pathMax)
    (hdowns : s.course.downs ≠ []) :
    ∃ b', (s.step .up).Shows b' ∧ b.dotDot = b'.checked := by
  obtain ⟨front, last, hconcat⟩ := (eq_nil_or_concat' s.course.downs).resolve_left hdowns
  have hlast : Plain last := h.plain last (by simp [hconcat])
  have hplain : ∀ name ∈ front, Plain name := by
    intro name hname
    exact h.plain name (by simp [hconcat, hname])
  have hstep : s.step .up = ⟨⟨s.course.ups, front⟩, false⟩ := by
    simp [step, Course.move, hconcat]
  have hcomps : comps s.course = comps (s.step .up).course ++ [last] := by
    simp [comps, hstep, hconcat]
  have hne : comps s.course ≠ [] := by simp [hcomps]
  have hbuf : b.buf = join (comps (s.step .up).course ++ [last]) := by
    rw [h.buf, relative_of_ne hne, hcomps]
  by_cases hfront : comps (s.step .up).course = []
  · -- the name is all there is
    rw [hfront, nil_append, join_singleton] at hbuf
    have hdots : ¬(b.buflen = 2 ∧ b.buf[0]? = some '.' ∧ b.buf[1]? = some '.') := by
      rintro ⟨hlen, h0, h1⟩
      apply hlast.ne.2.2
      rw [← hbuf]
      refine eq_dots_of_getElem? ?_ h0 h1
      rcases h.slack with heq | heq <;> omega
    unfold Buf.dotDot
    rw [if_neg h.buflen_pos, strrchr_eq_none (hbuf ▸ hlast.slash)]
    simp only [if_neg (h.not_dot hne), if_neg hdots]
    have hstart := comps_eq_nil.mp hfront
    refine ⟨⟨['.'], 1⟩, ⟨?_, ?_, Or.inl rfl, ?_, ?_⟩, rfl⟩
    · simp [hstart, relative]
    · simp [hstep]
    · simp [hstep]
    · simp [hstart, Course.start]
  · rw [join_concat hfront] at hbuf
    have hnil : join (comps (s.step .up).course) ≠ [] :=
      join_ne_nil (fun name hname => (mem_comps h.plain (by simp [hcomps, hname])).1) hfront
    rw [Buf.dotDot_of_slash hbuf h.slack hlast.slash hlast.ne.2.2 hnil]
    refine ⟨_, ⟨?_, ?_, Or.inl rfl, ?_, ?_⟩, (Buf.checked_of_le ?_).symm⟩
    · simp [relative_of_ne hfront]
    · simp [hstep]
    · simp [hstep]
    · simpa [hstep] using hplain
    · refine le_trans ?_ hfits
      simp [hbuf]

theorem relative_ups (n : Nat) :
    relative ⟨n + 1, []⟩ = join (List.replicate (n + 1) ['.', '.']) := by
  simp [relative, comps, Course.start]

theorem relative_ups_succ (n : Nat) :
    relative ⟨n + 2, []⟩ = relative ⟨n + 1, []⟩ ++ ['/', '.', '.'] := by
  rw [relative_ups, relative_ups, replicate_succ', join_concat (by simp)]

theorem Shows.dotDot_of_nil (h : s.Shows b) (hdowns : s.course.downs = []) :
    ∃ b', (s.step .up).Shows b' ∧ b.dotDot = b'.checked := by
  have hlen := h.tight hdowns
  have hpos := h.buflen_pos
  have hne := h.ne_nil
  obtain ⟨hbuf, -, -, hloose, -⟩ := h
  obtain ⟨⟨ups, downs⟩, loose⟩ := s
  obtain ⟨buf, buflen⟩ := b
  simp only at hdowns hbuf hlen hpos hne
  subst hdowns hbuf hlen
  cases loose with
  | true =>
    -- the buffer is `..`, but taken for longer
    obtain rfl : ups = 1 := by simpa using hloose rfl
    refine ⟨⟨['.'], 1⟩, ⟨?_, ?_, Or.inl rfl, ?_, ?_⟩, rfl⟩ <;> simp [step, relative, Course.start]
  | false =>
    have hstep : step ⟨⟨ups, []⟩, false⟩ .up = ⟨⟨ups + 1, []⟩, ups = 0⟩ := by
      simp [step, Course.move]
    rw [hstep]
    rcases ups with _ | _ | n
    · refine ⟨⟨['.', '.'], 3⟩, ⟨?_, ?_, Or.inr rfl, ?_, ?_⟩, rfl⟩ <;>
        simp [relative, comps, Course.start]
    · exact ⟨⟨['.', '.', '/', '.', '.'], 5⟩,
        ⟨by decide, by simp, Or.inl rfl, by simp, by simp⟩, rfl⟩
    · have hfront : (relative ⟨n + 1, []⟩).length ≠ 0 := by
        rw [relative_ups]
        simpa using join_ne_nil (by simp) (by simp)
      have hstrrchr : strrchr '/' (relative ⟨n + 2, []⟩) = some (relative ⟨n + 1, []⟩).length := by
        rw [relative_ups_succ]
        exact strrchr_append (by decide)
      refine ⟨⟨relative ⟨n + 3, []⟩, (relative ⟨n + 3, []⟩).length⟩,
        ⟨rfl, by simp, Or.inl rfl, by simp, by simp⟩, ?_⟩
      unfold Buf.dotDot
      rw [if_neg hpos, hstrrchr, relative_ups_succ (n + 1)]
      simp [hfront, relative_ups_succ n, Buf.strcat_eq]

theorem Shows.name (h : s.Shows b) {name : CString} (hname : Plain name) :
    ∃ b', (s.step (.down name)).Shows b' ∧ b.name name = b'.checked := by
  have hplain : ∀ n ∈ s.course.downs ++ [name], Plain n := by
    intro n hn
    rcases mem_append.mp hn with hn | hn
    · exact h.plain n hn
    · rw [mem_singleton.mp hn]
      exact hname
  have hrelative : relative ⟨s.course.ups, s.course.downs ++ [name]⟩ =
      join (comps s.course ++ [name]) := by
    simp [relative, comps, Course.start]
  by_cases hcomps : comps s.course = []
  · have hstart := comps_eq_nil.mp hcomps
    have hloose : s.loose = false := by
      by_contra htrue
      have hone := h.loose (by simpa using htrue)
      simp [hstart, Course.start] at hone
    have hbuf : b.buf = ['.'] := by simp [h.buf, hstart, relative]
    have hlen : b.buflen = 1 := by
      simpa [hloose, hbuf] using h.tight (by simp [hstart, Course.start])
    refine ⟨⟨name, name.length⟩, ⟨?_, ?_, Or.inl rfl, ?_, hplain⟩, ?_⟩
    · simp [step, Course.move, hrelative, hcomps]
    · simp [step, Course.move]
    · simp [step]
    · simp [Buf.name, hbuf, hlen, Buf.strcat_eq]
  · obtain ⟨front, last, hmem, hjoin⟩ := exists_join_eq hcomps
    obtain ⟨hnil, -, hslash⟩ := mem_comps h.plain hmem
    have hbuf : b.buf = front ++ last := by rw [h.buf, relative_of_ne hcomps, hjoin]
    refine ⟨_, ⟨?_, ?_, ?_, ?_, hplain⟩,
      Buf.name_of_last hbuf h.slack hslash hnil (h.not_dot hcomps)⟩
    · simp [step, Course.move, hrelative, join_concat hcomps, h.buf, relative_of_ne hcomps]
    · simp [step, Course.move]
    · unfold Buf.Slack
      simp only [length_append, length_cons]
      rcases h.slack with heq | heq <;> omega
    · simp [step]

theorem Shows.part (h : s.Shows b) (hfits : b.buf.length ≤ pathMax) (path : CString)
    {part : CString}
    (hslash : '/' ∉ part) (hlen : part.length ≤ nameMax) :
    ∃ b', (s.step (component part)).Shows b' ∧ b.part path part = b'.checked := by
  have hstay : ∃ b', (s.step .stay).Shows b' ∧ Except.ok b = b'.checked :=
    ⟨b, h, (Buf.checked_of_le hfits).symm⟩
  unfold Buf.part
  rw [take_of_length_le hlen]
  simp only [h.buflen_pos, false_and, if_false]
  split_ifs with hnil hdot hdots
  · simpa [hnil, component] using hstay
  · simpa [hdot, component] using hstay
  · rw [hdots, component_dots]
    by_cases hdowns : s.course.downs = []
    · exact h.dotDot_of_nil hdowns
    · exact h.dotDot_of_ne hfits hdowns
  · rw [component_of_plain hnil hdot hdots]
    exact h.name ⟨hslash, component_of_plain hnil hdot hdots⟩

theorem scanned (path : CString) :
    Scanned path Shows step fun s => relative s.course :=
  ⟨fun h => h.buf, fun h hfits hslash hlen => h.part hfits path hslash hlen⟩

end Scan

/-! ## Absolute paths -/

structure ShowsDir (names : List CString) (b : Buf) : Prop where
  buf : b.buf = absolute names
  buflen : b.buflen = b.buf.length
  plain : ∀ name ∈ names, Plain name

namespace ShowsDir

variable {names : List CString} {b : Buf}

theorem buflen_pos (h : ShowsDir names b) : b.buflen ≠ 0 := by
  simp [h.buflen, h.buf, absolute]

theorem dotDot (h : ShowsDir names b) (hfits : b.buf.length ≤ pathMax) :
    ∃ b', ShowsDir names.dropLast b' ∧ b.dotDot = b'.checked := by
  have hroot : ∀ last, '/' ∉ last → b.buf = '/' :: last → b.dotDot = .ok ⟨['/'], 1⟩ := by
    intro last hslash hbuf
    have hnot : ¬(b.buflen = 0 + 1 + 3 ∧ b.buf[0 + 1]? = some '/' ∧ b.buf[0 + 1 + 1]? = some '.' ∧
        b.buf[0 + 1 + 2]? = some '.') := by
      rintro ⟨-, h1, -⟩
      rw [hbuf] at h1
      exact hslash (mem_of_getElem? (by simpa using h1 : last[0]? = some '/'))
    have hstrrchr : strrchr '/' b.buf = some 0 := by
      rw [hbuf]
      exact strrchr_append hslash (s := [])
    have hfirst : b.buf[0]? = some '/' := by simp [hbuf]
    unfold Buf.dotDot
    simp only [if_neg h.buflen_pos, hstrrchr, hfirst, true_and, if_true, if_neg hnot]
    simp [hbuf]
  rcases eq_nil_or_concat' names with rfl | ⟨front, last, rfl⟩
  · exact ⟨⟨['/'], 1⟩, ⟨rfl, rfl, by simp⟩, hroot [] (by simp) h.buf⟩
  · have hlast : Plain last := h.plain last (by simp)
    have hplain : ∀ name ∈ front, Plain name := by
      intro name hname
      exact h.plain name (by simp [hname])
    rw [dropLast_concat]
    rcases eq_or_ne front [] with rfl | hne
    · exact ⟨⟨['/'], 1⟩, ⟨rfl, rfl, by simp⟩, hroot last hlast.slash (by simp [h.buf, absolute])⟩
    · have hbuf : b.buf = absolute front ++ '/' :: last := by
        simp [h.buf, absolute, join_concat hne]
      refine ⟨⟨absolute front, (absolute front).length⟩, ⟨rfl, rfl, hplain⟩, ?_⟩
      rw [Buf.dotDot_of_slash hbuf (Or.inl h.buflen) hlast.slash hlast.ne.2.2 (by simp [absolute]),
        Buf.checked_of_le]
      refine le_trans ?_ hfits
      simp [hbuf]

theorem name (h : ShowsDir names b) {name : CString} (hname : Plain name) :
    ∃ b', ShowsDir (names ++ [name]) b' ∧ b.name name = b'.checked := by
  have hplain : ∀ n ∈ names ++ [name], Plain n := by
    intro n hn
    rcases mem_append.mp hn with hn | hn
    · exact h.plain n hn
    · rw [mem_singleton.mp hn]
      exact hname
  have hdot : ¬(b.buflen = 1 ∧ b.buf[0]? = some '.') := by simp [h.buf, absolute]
  rcases eq_or_ne names [] with rfl | hne
  · have hbuf : b.buf = ['/'] := h.buf
    have hlen : b.buflen = 1 := by simp [h.buflen, hbuf]
    refine ⟨⟨'/' :: name, name.length + 1⟩, ⟨by simp [absolute], rfl, hplain⟩, ?_⟩
    simp [Buf.name, hbuf, hlen, Buf.strcat_eq, Nat.add_comm]
  · obtain ⟨front, last, hmem, hjoin⟩ := exists_join_eq hne
    have hlast := h.plain last hmem
    have hbuf : b.buf = ('/' :: front) ++ last := by simp [h.buf, absolute, hjoin]
    refine ⟨_, ⟨?_, ?_, hplain⟩,
      Buf.name_of_last hbuf (Or.inl h.buflen) hlast.slash hlast.ne.1 hdot⟩
    · simp [h.buf, absolute, join_concat hne]
    · simp [h.buflen]

theorem part (h : ShowsDir names b) (hfits : b.buf.length ≤ pathMax) (path : CString)
    {part : CString} (hslash : '/' ∉ part) (hlen : part.length ≤ nameMax) :
    ∃ b', ShowsDir ((component part).apply names) b' ∧ b.part path part = b'.checked := by
  have hstay : ∃ b', ShowsDir names b' ∧ Except.ok b = b'.checked :=
    ⟨b, h, (Buf.checked_of_le hfits).symm⟩
  unfold Buf.part
  rw [take_of_length_le hlen]
  simp only [h.buflen_pos, false_and, if_false]
  split_ifs with hnil hdot hdots
  · simpa [hnil, component, Move.apply] using hstay
  · simpa [hdot, component, Move.apply] using hstay
  · rw [hdots, component_dots]
    exact h.dotDot hfits
  · rw [component_of_plain hnil hdot hdots]
    exact h.name ⟨hslash, component_of_plain hnil hdot hdots⟩

theorem scanned (path : CString) : Scanned path ShowsDir Move.apply absolute :=
  ⟨fun h => h.buf, fun h hfits hslash hlen => h.part hfits path hslash hlen⟩

end ShowsDir

end CrystaxNdk.Vfs

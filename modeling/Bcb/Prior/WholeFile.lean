import Bcb.Prior.Registration

namespace Bcb.Prior

open Lib Layout Bt

variable {B : Build} {io : Io} {m : Memory} {r : Registered} {g : Globals}

/-! ## Writes -/

theorem fwrite_ok {bytes : List UInt8} {x x' : Writing} (h : fwrite io bytes x = (true, x')) :
    x' = { x with file := x.file ++ bytes, writes := x.writes + 1 } := by
  obtain ⟨hn, hx⟩ := Prod.mk.inj h
  rw [of_decide_eq_true hn, List.take_length] at hx
  exact hx.symm

theorem padZeros_ok {target n : Nat} {x : Writing} (hn : target - x.file.length ≤ n)
    (h : (padZeros io target n x).ok = true) :
    x.ok = true ∧ (padZeros io target n x).file = padTo 0 x.file target := by
  induction n generalizing x with
  | zero =>
    refine ⟨h, ?_⟩
    rw [padTo, Nat.le_zero.1 hn, List.replicate_zero, List.append_nil]
    rfl
  | succ n ih =>
    unfold padZeros at h ⊢
    by_cases hlt : x.file.length < target
    · simp only [if_pos hlt] at h ⊢
      rcases hw : fwrite io (List.replicate (min 8 (target - x.file.length)) 0) x with ⟨ok, x1⟩
      simp only [hw] at h ⊢
      cases ok with
      | false => cases h
      | true =>
        obtain rfl := fwrite_ok hw
        obtain ⟨hok, hfile⟩ := ih (by
          rw [List.length_append, List.length_replicate]
          omega) h
        refine ⟨hok, hfile.trans ?_⟩
        rw [padTo, padTo, List.append_assoc, List.length_append, List.length_replicate,
          List.replicate_append_replicate]
        congr 3
        omega
    · simp only [if_neg hlt] at h ⊢
      refine ⟨h, ?_⟩
      rw [padTo, Nat.sub_eq_zero_of_le (not_lt.1 hlt), List.replicate_zero, List.append_nil]

theorem writeSection_ok {x : Writing} {y : Nat × List UInt8}
    (h : (writeSection io x y).ok = true) :
    x.ok = true ∧ (writeSection io x y).file = put 0 x.file y.1 y.2 := by
  have hpad := @padZeros_ok io y.1 _ x le_rfl
  unfold writeSection at h ⊢
  split_ifs at h ⊢ with hnil
  · rw [put, hnil, List.append_nil]
    exact hpad h
  · rcases hw : fwrite io y.2 (padFile io y.1 x) with ⟨ok, x1⟩
    simp only [hw] at h ⊢
    obtain ⟨hx1, rfl⟩ := Bool.and_eq_true_iff.1 h
    obtain rfl := fwrite_ok hw
    obtain ⟨hx, hfile⟩ := hpad hx1
    refine ⟨hx, ?_⟩
    change (padFile io y.1 x).file ++ y.2 = _
    rw [padFile, hfile, put]

theorem foldl_writeSection_ok {l : List (Nat × List UInt8)} {x : Writing}
    (h : (l.foldl (writeSection io) x).ok = true) :
    x.ok = true ∧ (l.foldl (writeSection io) x).file = putAll 0 x.file l := by
  induction l generalizing x with
  | nil => exact ⟨h, rfl⟩
  | cons y l ih =>
    obtain ⟨hok, hfile⟩ := ih h
    obtain ⟨hx, hput⟩ := writeSection_ok hok
    refine ⟨hx, ?_⟩
    rw [List.foldl_cons, hfile, hput]
    rfl

/-- However short the writes are, a call that returns 0 has left them all. -/
theorem writeImage_file (h : (writeImage B io m r g).ok = true) :
    (writeImage B io m r g).file = imageBytes B m r g := by
  have hok : (writeImage B io m r g).ok = true := h
  unfold writeImage at h ⊢
  rcases hw : fwrite io (headerBytes (saveHeader r (btV3Export B g))) ⟨[], 0, true⟩ with ⟨ok, x⟩
  simp only [hw] at h ⊢
  obtain ⟨hall, -⟩ := Bool.and_eq_true_iff.1 h
  obtain ⟨hx, hfile⟩ := foldl_writeSection_ok hall
  obtain rfl : ok = true := hx
  obtain rfl := fwrite_ok hw
  exact hfile

/-! ## The image and its beginnings -/

theorem priorParse_begin {n : Nat} (hsize : (imageBytes B m r g).length < 2 ^ 63)
    (hn : n < (imageBytes B m r g).length) :
    priorParse B (.ofList ((imageBytes B m r g).take n)) = .ok none := by
  rw [imageBytes_length] at hsize
  have hfits := saveHeader_fits hsize
  have hlen : (Image.ofList ((imageBytes B m r g).take n)).len = n := by
    change ((imageBytes B m r g).take n).length = n
    rw [List.length_take, Nat.min_eq_left hn.le]
  rw [priorParse, hlen]
  split_ifs with hshort
  · rfl
  · have hbegin : headerBytes (saveHeader r (btV3Export B g)) <+: (imageBytes B m r g).take n := by
      apply List.prefix_of_prefix_length_le prefix_putAll (List.take_prefix n _)
      rw [headerBytes_length hfits, ← imageBytes, List.length_take, Nat.min_eq_left hn.le]
      exact not_lt.1 hshort
    have hhead : At (headerBytes (saveHeader r (btV3Export B g))) 0
        (headerBytes (saveHeader r (btV3Export B g))) := fun i _ => by rw [Nat.zero_add]
    have hheader := header_of_holds (holds_of_at (hhead.extend hbegin)) hfits
    have hrefused : headerOk (header (.ofList ((imageBytes B m r g).take n))) n = false := by
      rw [imageBytes_length] at hn
      rw [hheader, headerOk]
      simp only [decide_eq_false (Nat.not_le_of_lt hn), Bool.and_false, Bool.false_and]
    simp only [hrefused, Bool.not_false, if_true]
    rfl

/-- Whatever the library answers to the writes, a save that returns 0 has left the image in its
full size, and of such a file no beginning is taken for a prior. -/
theorem writeImage_whole (hok : (writeImage B io m r g).ok = true)
    (hsize : (writeImage B io m r g).file.length < 2 ^ 63) :
    (writeImage B io m r g).file = imageBytes B m r g ∧
      (writeImage B io m r g).file.length = (saveHeader r (btV3Export B g)).fileSize ∧
      ∀ n < (writeImage B io m r g).file.length,
        priorParse B (.ofList ((writeImage B io m r g).file.take n)) = .ok none := by
  rw [writeImage_file hok] at hsize ⊢
  exact ⟨rfl, imageBytes_length, fun n hn => priorParse_begin hsize hn⟩

theorem writeImage_whole_init : ∃ file, writeImage .plain ⟨true, fun _ n => n, true⟩
      ⟨⟨fun _ _ => 0, fun _ _ => 0⟩, fun _ => 0⟩ .none
      (btV3Init .plain (fun _ => blankBt) fun _ => blankCtx) = ⟨file, true⟩ ∧
    file = imageBytes .plain ⟨⟨fun _ _ => 0, fun _ _ => 0⟩, fun _ => 0⟩ .none
      (btV3Init .plain (fun _ => blankBt) fun _ => blankCtx) ∧
    file.length = (saveHeader .none
      (btV3Export .plain (btV3Init .plain (fun _ => blankBt) fun _ => blankCtx))).fileSize ∧
    ∀ n < file.length, priorParse .plain (.ofList (file.take n)) = .ok none := by
  obtain ⟨file, hsave⟩ := bcbPriorSave_some .plain ⟨fun _ _ => 0, fun _ _ => 0⟩ .none
    (g := btV3Init .plain (fun _ => blankBt) fun _ => blankCtx) (Nat.zero_le _) (Nat.zero_le _)
    (by decide)
  have hsaved := bcbPriorSave_saved hsave
  have hwrite : writeImage .plain ⟨true, fun _ n => n, true⟩
      ⟨⟨fun _ _ => 0, fun _ _ => 0⟩, fun _ => 0⟩ .none
      (btV3Init .plain (fun _ => blankBt) fun _ => blankCtx) = ⟨file, true⟩ :=
    writeImage_complete (fun _ _ => le_rfl) rfl rfl hsave
  have hwhole := writeImage_whole (congrArg Written.ok hwrite) (by
    rw [hwrite]
    exact hsaved.lt)
  rw [hwrite] at hwhole
  exact ⟨file, hwrite, hwhole⟩

end Bcb.Prior

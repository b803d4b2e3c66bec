import Camille.Headers

/-!
# The Host Value

`ParseHost` forms two views of the value it is given, by address and length, and copies
them. The length of the second is a pointer difference converted to `size_t`, and behind a
value without a colon that difference is negative.

## Main results

* `parseHost_eq_views`: `ParseHost` copies its two views, and throws when one is not a
  view of the value.
* `parseHost_splits_iff`: it takes the value apart exactly when there is a colon in it.
-/

open Lib

namespace Camille

/-- A `std::string_view` into a string: the index it begins at, and its length. -/
structure View where
  first : ℕ
  size : ℕ
  deriving DecidableEq, Repr

/-- The view covers bytes of the string only. -/
def View.Inside (view : View) (value : Bytes) : Prop :=
  view.first + view.size ≤ value.length

/-- Whether a view stays inside can be computed. -/
instance (view : View) (value : Bytes) : Decidable (view.Inside value) :=
  inferInstanceAs (Decidable (_ ≤ _))

/-- The bytes a view covers. -/
def View.bytes (view : View) (value : Bytes) : Bytes :=
  (value.drop view.first).take view.size

/-- A pointer difference as a `size_t`: a negative one wraps around. -/
def toSize : ℤ → ℕ
  | .ofNat n => n
  | .negSucc n => sizeMax - n

/-- Where the loop of `ParseHost` stops. -/
def hostEnd : Bytes → ℕ
  | [] => 0
  | b :: value => if b != ':'.toUInt8 then hostEnd value + 1 else 0

/-- `std::string_view host(value.begin(), pos - value.begin())`. -/
def hostView (value : Bytes) : View :=
  ⟨0, toSize (hostEnd value - 0)⟩

/-- `++pos; std::string_view port(pos, value.end() - pos)`. -/
def portView (value : Bytes) : View :=
  ⟨hostEnd value + 1, toSize (value.length - (hostEnd value + 1 : ℕ))⟩

/-! ### The two views -/

/-- The loop stops at the first colon. -/
theorem hostEnd_of_colon {host : Bytes} (h : ':'.toUInt8 ∉ host) (port : Bytes) :
    hostEnd (host ++ ':'.toUInt8 :: port) = host.length := by
  induction host with
  | nil => rfl
  | cons b host ih =>
      have hb : (b != ':'.toUInt8) = true := by
        rw [bne, beq_eq_false_of_notMem h b List.mem_cons_self]
        rfl
      rw [List.cons_append, hostEnd, if_pos hb, ih fun hm => h (List.mem_cons_of_mem b hm)]
      rfl

/-- Without a colon it runs to the end. -/
theorem hostEnd_of_no_colon {value : Bytes} (h : ':'.toUInt8 ∉ value) :
    hostEnd value = value.length := by
  induction value with
  | nil => rfl
  | cons b value ih =>
      have hb : (b != ':'.toUInt8) = true := by
        rw [bne, beq_eq_false_of_notMem h b List.mem_cons_self]
        rfl
      rw [hostEnd, if_pos hb, ih fun hm => h (List.mem_cons_of_mem b hm)]
      rfl

/-- The host begins with the value. -/
theorem hostView_eq (value : Bytes) : hostView value = ⟨0, hostEnd value⟩ := by
  rw [hostView, sub_zero]
  rfl

/-- With a colon, the port is the rest of the value behind it. -/
theorem portView_of_colon {host : Bytes} (h : ':'.toUInt8 ∉ host) (port : Bytes) :
    portView (host ++ ':'.toUInt8 :: port) = ⟨host.length + 1, port.length⟩ := by
  have hdiff : ((host ++ ':'.toUInt8 :: port).length : ℤ) - (host.length + 1 : ℕ) =
      (port.length : ℤ) := by
    rw [List.length_append, List.length_cons]
    omega
  rw [portView, hostEnd_of_colon h, hdiff]
  rfl

/-- The host is what stands before the first colon. -/
theorem bytes_hostView {host : Bytes} (h : ':'.toUInt8 ∉ host) (port : Bytes) :
    (hostView (host ++ ':'.toUInt8 :: port)).bytes (host ++ ':'.toUInt8 :: port) = host := by
  rw [hostView_eq, hostEnd_of_colon h]
  exact List.take_left

/-- The port is what stands behind it. -/
theorem bytes_portView {host : Bytes} (h : ':'.toUInt8 ∉ host) (port : Bytes) :
    (portView (host ++ ':'.toUInt8 :: port)).bytes (host ++ ':'.toUInt8 :: port) = port := by
  rw [portView_of_colon h, View.bytes, List.drop_append, List.drop_of_length_le (by simp)]
  simp

/-- Without one, it begins behind the end of the value, with a negative length. -/
theorem portView_of_no_colon {value : Bytes} (h : ':'.toUInt8 ∉ value) :
    portView value = ⟨value.length + 1, sizeMax⟩ := by
  have hdiff : (value.length : ℤ) - (value.length + 1 : ℕ) = .negSucc 0 := by omega
  rw [portView, hostEnd_of_no_colon h, hdiff]
  rfl

/-- **The port is inside the value just when there is a colon.** -/
theorem portView_inside_iff (value : Bytes) :
    (portView value).Inside value ↔ ':'.toUInt8 ∈ value := by
  constructor
  · intro hinside
    by_contra h
    rw [portView_of_no_colon h, View.Inside] at hinside
    dsimp only at hinside
    omega
  · intro h
    obtain ⟨host, port, rfl, hhost⟩ := List.eq_append_cons_of_mem h
    rw [portView_of_colon hhost, View.Inside, List.length_append, List.length_cons]
    dsimp only
    omega

section ParseHost

variable {T : Type} [IsReqResType T]

open IsReqResType

/-- **`ParseHost` copies its two views**, and throws when the second is none of the
value. -/
theorem parseHost_eq_views (value : Bytes) (d : T) :
    parseHost value d =
      if (portView value).Inside value then
        .returned (setPort (setHost d ((hostView value).bytes value))
          ((portView value).bytes value))
      else .threw .lengthError := by
  by_cases h : ':'.toUInt8 ∈ value
  · rw [if_pos ((portView_inside_iff value).2 h), parseHost_of_colon h]
    obtain ⟨host, port, rfl, hhost⟩ := List.eq_append_cons_of_mem h
    rw [takeWhile_bne_append hhost, dropWhile_bne_append hhost, bytes_hostView hhost,
      bytes_portView hhost, List.tail_cons]
  · rw [if_neg (fun hin => h ((portView_inside_iff value).1 hin)), parseHost_of_no_colon h]

/-- **`ParseHost` takes a value apart** into host and port, through views of the value,
exactly when there is a colon in it. -/
theorem parseHost_splits_iff (value : Bytes) (d : T) :
    ((hostView value).Inside value ∧ (portView value).Inside value ∧
      ∃ d', parseHost value d = .returned d' ∧
        if ':'.toUInt8 ∈ value then
          (fields d').host ++ ':'.toUInt8 :: (fields d').port = value ∧
            ':'.toUInt8 ∉ (fields d').host
        else (fields d').host = value ∧ (fields d').port = []) ↔
      ':'.toUInt8 ∈ value := by
  constructor
  · rintro ⟨-, hinside, -⟩
    exact (portView_inside_iff value).1 hinside
  · intro h
    have hinside := (portView_inside_iff value).2 h
    refine ⟨?_, hinside, _, (parseHost_eq_views value d).trans (if_pos hinside), ?_⟩
    · obtain ⟨host, port, rfl, hhost⟩ := List.eq_append_cons_of_mem h
      rw [hostView_eq, hostEnd_of_colon hhost, View.Inside, List.length_append]
      dsimp only
      omega
    · rw [if_pos h, fields_setPort, fields_setHost]
      obtain ⟨host, port, rfl, hhost⟩ := List.eq_append_cons_of_mem h
      rw [bytes_hostView hhost, bytes_portView hhost]
      exact ⟨rfl, hhost⟩

/-- A header value without a colon is not taken apart. -/
theorem not_parseHost_splits :
    ¬ ∀ value : Bytes, (∀ b ∈ value, headerValueTraits b = true) → ∀ d : Request,
      (hostView value).Inside value ∧ (portView value).Inside value ∧
        ∃ d', parseHost value d = .returned d' ∧
          if ':'.toUInt8 ∈ value then
            (fields d').host ++ ':'.toUInt8 :: (fields d').port = value ∧
              ':'.toUInt8 ∉ (fields d').host
          else (fields d').host = value ∧ (fields d').port = [] := by
  intro h
  have hinside := (h (ascii "a") (List.all_eq_true.1 (by decide)) {}).2.1
  exact absurd hinside (by decide)

end ParseHost

end Camille

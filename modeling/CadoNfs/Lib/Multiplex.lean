import Mathlib.Data.Finset.Card

/-!
# Streams multiplexed over one channel

Packets of several streams arrive on one channel, those of each stream in order.  The last
packet of a stream is marked.  A receiver that knows the number of streams takes packets
until all streams have ended, but it also leaves when a packet is empty.

Main results:

- Theorem `drain_iff`: when such a receiver gets all of every stream.
-/

namespace Multiplex

open Function (update update_of_ne update_self)

variable {τ α : Type*}

/-- A packet of the stream `tag`. -/
structure Packet (τ α : Type*) where
  tag : τ
  payload : List α
  last : Bool

/-- The last packet of a stream is marked, and no other one. -/
def Ends (ps : List (Packet τ α)) : Prop :=
  ∃ init p, ps = init ++ [p] ∧ p.last = true ∧ ∀ q ∈ init, q.last = false

variable {ps : List (Packet τ α)} {p : Packet τ α}

theorem Ends.ne_nil (h : Ends ps) : ps ≠ [] := by
  obtain ⟨init, p, rfl, -⟩ := h
  exact List.append_ne_nil_of_right_ne_nil init (List.cons_ne_nil p [])

theorem Ends.eq_nil_of_last (h : Ends (p :: ps)) (hp : p.last = true) : ps = [] := by
  obtain ⟨init, q, heq, -, hinit⟩ := h
  rcases init with _ | ⟨r, init⟩
  · exact (List.cons.inj heq).2
  · obtain ⟨rfl, -⟩ := List.cons.inj heq
    exact absurd hp (by rw [hinit p List.mem_cons_self]; exact Bool.false_ne_true)

theorem Ends.tail (h : Ends (p :: ps)) (hp : p.last = false) : Ends ps := by
  obtain ⟨init, q, heq, hq, hinit⟩ := h
  rcases init with _ | ⟨r, init⟩
  · obtain ⟨rfl, -⟩ := List.cons.inj heq
    exact absurd hq (by rw [hp]; exact Bool.false_ne_true)
  · exact ⟨init, q, (List.cons.inj heq).2, hq, fun r hr => hinit r (List.mem_cons_of_mem _ hr)⟩

variable [DecidableEq τ]

/-- The packets of one stream. -/
def ofTag (t : τ) (ps : List (Packet τ α)) : List (Packet τ α) :=
  ps.filter fun p => p.tag = t

/-- The receiver of `n` streams, of which `nover` have ended, with room for
`room` in each; what it has and the packets that it leaves. -/
def drain (n : ℕ) (room : τ → ℕ) :
    ℕ → (τ → List α) → List (Packet τ α) → Option ((τ → List α) × List (Packet τ α))
  | nover, out, [] => if n ≤ nover then some (out, []) else none
  | nover, out, p :: rest =>
    if n ≤ nover then some (out, p :: rest)
    else if p.payload = [] then some (out, rest)
    else if room p.tag < (out p.tag).length + p.payload.length then none
    else drain n room (nover + p.last.toNat)
      (update out p.tag (out p.tag ++ p.payload)) rest

/-- No packet comes after an empty one. -/
def NoneAfterEmpty (ps : List (Packet τ α)) : Prop :=
  ∀ before p after, ps = before ++ p :: after → p.payload = [] → after = []

/-- The packets that are left when the streams in `left` have not ended. -/
structure Arriving (left : Finset τ) (out ws : τ → List α) (ps : List (Packet τ α)) : Prop where
  ends : ∀ t ∈ left, Ends (ofTag t ps)
  ended : ∀ t ∉ left, ofTag t ps = []
  content : ∀ t, out t ++ (ofTag t ps).flatMap Packet.payload = ws t

section Streams

variable {left : Finset τ} {out ws : τ → List α}

theorem ofTag_cons (t : τ) (p : Packet τ α) (ps : List (Packet τ α)) :
    ofTag t (p :: ps) = if p.tag = t then p :: ofTag t ps else ofTag t ps := by
  rw [ofTag, List.filter_cons]
  by_cases h : p.tag = t <;> simp [h, ofTag]

theorem Arriving.mem (h : Arriving left out ws (p :: ps)) : p.tag ∈ left := by
  by_contra hp
  have := h.ended p.tag hp
  rw [ofTag_cons, if_pos rfl] at this
  exact List.cons_ne_nil _ _ this

theorem Arriving.step (h : Arriving left out ws (p :: ps)) :
    Arriving (if p.last then left.erase p.tag else left)
      (update out p.tag (out p.tag ++ p.payload)) ws ps := by
  have hends := h.ends p.tag h.mem
  rw [ofTag_cons, if_pos rfl] at hends
  have hother : ∀ t, t ≠ p.tag → ofTag t (p :: ps) = ofTag t ps := fun t ht => by
    rw [ofTag_cons, if_neg (Ne.symm ht)]
  refine ⟨fun t ht => ?_, fun t ht => ?_, fun t => ?_⟩
  · rcases eq_or_ne t p.tag with rfl | hne
    · cases hlast : p.last with
      | true => simp [hlast] at ht
      | false => exact hends.tail hlast
    · rw [← hother t hne]
      refine h.ends t ?_
      split_ifs at ht
      · exact Finset.mem_of_mem_erase ht
      · exact ht
  · rcases eq_or_ne t p.tag with rfl | hne
    · cases hlast : p.last with
      | true => exact hends.eq_nil_of_last hlast
      | false => exact absurd h.mem (by simpa [hlast] using ht)
    · rw [← hother t hne]
      refine h.ended t fun hmem => ht ?_
      split_ifs
      · exact Finset.mem_erase.mpr ⟨hne, hmem⟩
      · exact hmem
  · rw [← h.content t]
    rcases eq_or_ne t p.tag with rfl | hne
    · rw [update_self, ofTag_cons, if_pos rfl, List.flatMap_cons, List.append_assoc]
    · rw [update_of_ne hne, hother t hne]

end Streams

section Drain

variable {n nover : ℕ} {room : τ → ℕ} {left : Finset τ} {out out' ws : τ → List α}
  {rest : List (Packet τ α)}

theorem drain_cons (hover : nover < n) (out : τ → List α) (ps : List (Packet τ α)) :
    drain n room nover out (p :: ps) = if p.payload = [] then some (out, ps)
      else if room p.tag < (out p.tag).length + p.payload.length then none
      else drain n room (nover + p.last.toNat)
        (update out p.tag (out p.tag ++ p.payload)) ps :=
  if_neg hover.not_ge

theorem suffix_of_drain {before after : List (Packet τ α)} (hp : p.payload = [])
    (hrun : drain n room nover out (before ++ p :: after) = some (out', rest)) :
    after <:+ rest := by
  induction before generalizing nover out with
  | nil =>
    rw [List.nil_append, drain] at hrun
    split_ifs at hrun
    · obtain ⟨-, rfl⟩ := Prod.mk.inj (Option.some.inj hrun)
      exact List.suffix_cons p after
    · obtain ⟨-, rfl⟩ := Prod.mk.inj (Option.some.inj hrun)
      exact List.suffix_rfl
  | cons q before ih =>
    have hsuffix : after <:+ before ++ p :: after :=
      (List.suffix_cons p after).trans (List.suffix_append before _)
    rw [List.cons_append, drain] at hrun
    split_ifs at hrun
    · obtain ⟨-, rfl⟩ := Prod.mk.inj (Option.some.inj hrun)
      exact hsuffix.trans (List.suffix_cons q _)
    · obtain ⟨-, rfl⟩ := Prod.mk.inj (Option.some.inj hrun)
      exact hsuffix
    · exact ih hrun

theorem length_le_of_drain (hout : ∀ t, (out t).length ≤ room t)
    (hrun : drain n room nover out ps = some (out', rest)) (t : τ) :
    (out' t).length ≤ room t := by
  induction ps generalizing nover out with
  | nil =>
    rw [drain] at hrun
    split_ifs at hrun
    obtain ⟨rfl, -⟩ := Prod.mk.inj (Option.some.inj hrun)
    exact hout t
  | cons p ps ih =>
    rw [drain] at hrun
    split_ifs at hrun with h₁ h₂ h₃
    · obtain ⟨rfl, -⟩ := Prod.mk.inj (Option.some.inj hrun)
      exact hout t
    · obtain ⟨rfl, -⟩ := Prod.mk.inj (Option.some.inj hrun)
      exact hout t
    · refine ih (fun t => ?_) hrun
      rcases eq_or_ne t p.tag with rfl | hne
      · rw [update_self, List.length_append]
        omega
      · rw [update_of_ne hne]
        exact hout t

theorem drain_eq (harriving : Arriving left out ws ps) (hleft : nover + left.card = n)
    (hroom : ∀ t, (ws t).length ≤ room t) (hempty : NoneAfterEmpty ps) :
    drain n room nover out ps = some (ws, []) := by
  induction ps generalizing nover out left with
  | nil =>
    have hcard : left = ∅ := by
      by_contra hne
      obtain ⟨t, ht⟩ := Finset.nonempty_iff_ne_empty.mpr hne
      exact (harriving.ends t ht).ne_nil rfl
    rw [drain, if_pos (by rw [← hleft, hcard, Finset.card_empty, Nat.add_zero])]
    refine congrArg (fun out => some (out, [])) (funext fun t => ?_)
    have := harriving.content t
    rwa [ofTag, List.filter_nil, List.flatMap_nil, List.append_nil] at this
  | cons p ps ih =>
    have hmem := harriving.mem
    have hcard := Finset.card_pos.mpr ⟨p.tag, hmem⟩
    have hcontent := harriving.content p.tag
    rw [ofTag_cons, if_pos rfl, List.flatMap_cons, ← List.append_assoc] at hcontent
    rw [drain_cons (by omega)]
    split_ifs with hp hlength
    · obtain rfl := hempty [] p ps rfl hp
      refine congrArg (fun out => some (out, [])) (funext fun t => ?_)
      rw [← harriving.content t, ofTag_cons]
      split_ifs
      · simp [ofTag, hp]
      · simp [ofTag]
    · have hle := hroom p.tag
      rw [← hcontent, List.length_append, List.length_append] at hle
      omega
    · refine ih harriving.step ?_ fun before q after heq => ?_
      · cases p.last with
        | true =>
          rw [Bool.toNat_true, if_pos rfl, Finset.card_erase_of_mem hmem]
          omega
        | false =>
          rw [Bool.toNat_false, if_neg Bool.false_ne_true]
          exact hleft
      · exact hempty (p :: before) q after (by rw [heq, List.cons_append])

/-- Everything is received exactly when there is room for it and no packet comes after an
empty one. -/
theorem drain_iff {tags : Finset τ} (harriving : Arriving tags (fun _ => []) ws ps) :
    (∃ out, drain tags.card room 0 (fun _ => []) ps = some (out, []) ∧ ∀ t ∈ tags, out t = ws t)
      ↔ (∀ t ∈ tags, (ws t).length ≤ room t) ∧ NoneAfterEmpty ps := by
  constructor
  · rintro ⟨out, hrun, hout⟩
    refine ⟨fun t ht => ?_, fun before p after heq hp => ?_⟩
    · rw [← hout t ht]
      exact length_le_of_drain (fun _ => Nat.zero_le _) hrun t
    · rw [heq] at hrun
      exact List.eq_nil_of_suffix_nil (suffix_of_drain hp hrun)
  · rintro ⟨hroom, hempty⟩
    refine ⟨ws, drain_eq harriving (Nat.zero_add _) (fun t => ?_) hempty, fun _ _ => rfl⟩
    by_cases ht : t ∈ tags
    · exact hroom t ht
    · rw [← harriving.content t, harriving.ended t ht]
      exact Nat.zero_le _

end Drain

end Multiplex

import Akypuera.Converter.Capacity

/-!
# The sizes and marks of `StartLink`s

A send event carries its size as 32 bits and its mark as 64. The converter reads both into an
`int`, uses -1 for "not there", and prints them into six bytes each. What comes out is the number
that was recorded **exactly when both are below 100000** (`startFields_iff`); from there on digits
are cut off, a sign appears, or the event is written without them.

The extended `PushState`s print the same fields as unsigned numbers into 21 bytes, which hold
them all, so below that bound the two agree.
-/

set_option autoImplicit false

namespace Akypuera
namespace Converter

open CText Code Keys Fifo Search

/-- The extra fields of an event. -/
def Paje.fields : Paje → List Str
  | .pushState _ _ _ _ user => (user.map Prod.snd).getD []
  | .startLink _ _ _ _ _ _ user => (user.map Prod.snd).getD []
  | _ => []

/-- A `StartLink`. -/
def Paje.isStart : Paje → Bool
  | .startLink .. => true
  | _ => false

/-- A send event with its two 32-bit fields and its 64-bit field. -/
def carries (e : Event) : Bool :=
  (arm e.type).sends && decide (e.nUint32 = 2) && decide (e.nUint64 = 1)

/-- The size and the mark as they were recorded. -/
def recorded (e : Event) : List Str := [fmtNat (e.vUint32 1).toNat, fmtNat (e.vUint64 0).toNat]

/-- Both have five digits at most. -/
def Short (e : Event) : Prop := (e.vUint32 1).toNat < 100000 ∧ (e.vUint64 0).toNat < 100000

instance (e : Event) : Decidable (Short e) := inferInstanceAs (Decidable (_ ∧ _))

/-- **Size and mark survive the conversion.** -/
structure SizesKept (r : Run) : Prop where
  /-- Every `StartLink` of such an event carries both in full. -/
  full : ∀ round ∈ r.rounds, carries round.1 = true →
    ∀ start ∈ pajes round.2, start.isStart = true → start.fields = recorded round.1
  /-- They are the ones that the `PushState` of the call carries. -/
  agree : ∀ enter ∈ r.rounds, ∀ message ∈ r.rounds,
    ∀ (id : UInt64) (type : Nat) (dst size : UInt32) (mark : UInt64),
      type = mpiSendIn ∨ type = mpiIsendIn →
      Event.Decodes id (rstEventIl type size mark) enter.1 →
      Event.Decodes id (rstEventIil akyPtpSend dst size mark) message.1 →
      ∀ push ∈ pajes enter.2, ∀ start ∈ pajes message.2, start.isStart = true →
        push.fields = start.fields
  /-- Different marks of a rank have different texts. -/
  distinct : ∀ round ∈ r.rounds, ∀ round' ∈ r.rounds, carries round.1 = true →
    carries round'.1 = true → round.1.id1 = round'.1.id1 →
    round.1.vUint64 0 ≠ round'.1.vUint64 0 →
    ∀ start ∈ pajes round.2, ∀ start' ∈ pajes round'.2, start.isStart = true →
      start'.isStart = true → start.fields[1]? ≠ start'.fields[1]?

/-! ## Texts in six bytes -/

/-- A text of six bytes shows at most five digits. -/
theorem lt_of_fit_eq {s : Str} {n : Nat} (h : fit 6 s = fmtNat n) : n < 100000 := by
  have hlen : (fmtNat n).length ≤ 5 := by
    rw [← h]
    exact List.length_take_le 5 s
  exact (Nat.length_toDigits_le_iff (k := 5) (by decide) (by decide)).mp hlen

/-- And all of them. -/
theorem fit_fmtInt {i : Int} {n : Nat} (hi : i = n) (hn : n < 100000) :
    fit 6 (fmtInt i) = fmtNat n := by
  have hpos : ¬ i < 0 := by omega
  have habs : i.natAbs = n := by omega
  have hlen : (fmtNat n).length ≤ 5 := length_fmtNat_le (by decide) hn
  rw [fmtInt, if_neg hpos, habs]
  exact fit_of_length_lt (by omega)

theorem toInt_toInt32 {x : UInt32} (h : x.toNat < 2 ^ 31) : x.toInt32.toInt = x.toNat := by
  have hnat : x.toInt32.toBitVec.toNat = x.toNat := rfl
  rw [Int32.toInt, BitVec.toInt_eq_toNat_cond]
  rw [if_pos (by rw [hnat]; omega), hnat]

theorem toInt_narrow {x : UInt64} (h : x.toNat < 2 ^ 31) : (toInt x).toInt = x.toNat := by
  have hnat : x.toUInt32.toNat = x.toNat := by
    rw [UInt64.toNat_toUInt32]
    omega
  rw [toInt, toInt_toInt32 (by omega), hnat]

/-- What a `StartLink` of `e` shows besides the key. -/
def startFields (e : Event) : List Str := (startLink e [] []).fields

theorem fields_startLink (e : Event) (keys key : Str) :
    (startLink e keys key).fields = startFields e ∧ (startLink e keys key).isStart = true := by
  unfold startFields startLink linksizemark
  split
  split <;> exact ⟨rfl, rfl⟩

/-- **Both texts are full exactly when both numbers are short.** -/
theorem startFields_iff {e : Event} (h : carries e = true) :
    startFields e = recorded e ↔ Short e := by
  simp only [carries, Bool.and_eq_true, decide_eq_true_iff] at h
  have hread : sizeAndMark e = ((e.vUint32 1).toInt32, toInt (e.vUint64 0)) := by
    rw [sizeAndMark, if_pos h.1.2, if_pos h.2]
  constructor
  · intro hfields
    unfold startFields startLink at hfields
    rw [hread] at hfields
    dsimp only at hfields
    split at hfields
    · simp only [linksizemark, Paje.fields, Option.map_some, Option.getD_some, recorded,
        List.cons.injEq, and_true] at hfields
      exact ⟨lt_of_fit_eq hfields.1, lt_of_fit_eq hfields.2⟩
    · exact absurd hfields (by simp [Paje.fields, recorded])
  · rintro ⟨hsize, hmark⟩
    have hsize' := toInt_toInt32 (x := e.vUint32 1) (by omega)
    have hmark' := toInt_narrow (x := e.vUint64 0) (by omega)
    have hpresent : (e.vUint32 1).toInt32 ≠ -1 ∧ toInt (e.vUint64 0) ≠ -1 := by
      constructor
      · intro heq
        rw [heq, show (-1 : Int32).toInt = -1 from rfl] at hsize'
        omega
      · intro heq
        rw [heq, show (-1 : Int32).toInt = -1 from rfl] at hmark'
        omega
    unfold startFields startLink
    rw [hread]
    dsimp only
    rw [if_pos hpresent]
    simp only [linksizemark, Paje.fields, Option.map_some, Option.getD_some, recorded]
    rw [fit_fmtInt hsize' hsize, fit_fmtInt hmark' hmark]

/-! ## Rounds -/

/-- The `StartLink`s of a round all show the same. -/
theorem LinkRound.start_fields {round : Event × List Out} (h : LinkRound round) {p : Paje}
    (hp : p ∈ pajes round.2) (hs : p.isStart = true) : p.fields = startFields round.1 := by
  have hlink : p ∈ (pajes round.2).filter Paje.isLink :=
    List.mem_filter.mpr ⟨hp, by cases p <;> first | rfl | exact absurd hs (by simp [Paje.isStart])⟩
  rw [h.links] at hlink
  obtain ⟨entry, -, rfl⟩ := List.mem_map.mp hlink
  cases entry with
  | push l key => exact (fields_startLink round.1 l.1.keys key).1
  | pop l ans => exact absurd hs (by simp [entryPaje, endLink, Paje.isStart])

/-- And there are some, where the event stands for a send. -/
theorem LinkRound.exists_start {round : Event × List Out} (h : LinkRound round)
    (hsend : putKeys (individual round.1) ≠ []) :
    ∃ p ∈ pajes round.2, p.isStart = true := by
  obtain ⟨l, hl⟩ := List.exists_mem_of_ne_nil _ hsend
  rw [mem_putKeys, ← h.req, List.mem_map] at hl
  obtain ⟨entry, hmem, hreq⟩ := hl
  cases entry with
  | pop l' ans => exact absurd hreq (by simp [Entry.req])
  | push l' key =>
    refine ⟨entryPaje round.1 (.push l' key), ?_, (fields_startLink round.1 l'.1.keys key).2⟩
    have hlink : entryPaje round.1 (.push l' key) ∈ (pajes round.2).filter Paje.isLink := by
      rw [h.links]
      exact List.mem_map_of_mem hmem
    exact List.mem_of_mem_filter hlink

/-- A `StartLink` is written for a send. -/
theorem LinkRound.putKeys_ne_nil {round : Event × List Out} (h : LinkRound round) {p : Paje}
    (hp : p ∈ pajes round.2) (hs : p.isStart = true) : putKeys (individual round.1) ≠ [] := by
  have hlink : p ∈ (pajes round.2).filter Paje.isLink :=
    List.mem_filter.mpr ⟨hp, by cases p <;> first | rfl | exact absurd hs (by simp [Paje.isStart])⟩
  rw [h.links] at hlink
  obtain ⟨entry, hmem, rfl⟩ := List.mem_map.mp hlink
  cases entry with
  | pop l ans => exact absurd hs (by simp [entryPaje, endLink, Paje.isStart])
  | push l key =>
    have hput : l ∈ putKeys (individual round.1) := by
      rw [mem_putKeys, ← h.req]
      exact List.mem_map.mpr ⟨_, hmem, rfl⟩
    exact List.ne_nil_of_mem hput

/-! ## Runs -/

/-- The arms of the two events that a send records on entry. -/
theorem arm_of_send {type : Nat} (h : type = mpiSendIn ∨ type = mpiIsendIn) :
    arm type = .pushStateSend := by
  rcases h with rfl | rfl <;> decide +kernel

/-- The `PushState` of a send shows the fields it was recorded with. -/
theorem push_fields {args : Arguments} {st st' : State} {e : Event} {outs : List Out}
    {id : UInt64} {type : Nat} {size : UInt32} {mark : UInt64}
    (hstep : step args st e = some (st', outs)) (htype : type = mpiSendIn ∨ type = mpiIsendIn)
    (hdec : Event.Decodes id (rstEventIl type size mark) e) {push : Paje}
    (hpush : push ∈ pajes outs) : push.fields = [fmtNat size.toNat, fmtNat mark.toNat] := by
  have harm : arm e.type = .pushStateSend := by
    rw [hdec.type]
    exact arm_of_send htype
  have hsize : e.vUint32 0 = size := hdec.vUint32 0 (by simp [rstEventIl])
  have hmark : e.vUint64 0 = mark := hdec.vUint64 0 (by simp [rstEventIl])
  unfold step at hstep
  simp only [harm] at hstep
  cases hs : args.noStates with
  | true =>
    rw [hs, if_pos rfl] at hstep
    cases hstep
    exact absurd hpush (by simp [pajes])
  | false =>
    rw [hs, if_neg (by simp)] at hstep
    obtain ⟨out, hout, hres⟩ := Option.map_eq_some_iff.mp hstep
    cases hres
    simp only [statePushed, harm, pushStateSend, Option.bind_eq_bind, Option.bind_eq_some_iff,
      guard, Option.pure_def] at hout
    obtain ⟨value, -, -, -, -, -, hout⟩ := hout
    cases hout
    have hpush' : push = _ := List.mem_singleton.mp hpush
    have hlen : (fmtNat size.toNat).length < 21 := by
      have hlt := size.toNat_lt
      exact Nat.lt_of_le_of_lt (length_fmtNat_le (k := 10) (by decide) (by omega)) (by decide)
    have hlen' : (fmtNat mark.toNat).length < 21 := by
      have hlt := mark.toNat_lt
      exact Nat.lt_of_le_of_lt (length_fmtNat_le (k := 20) (by decide) (by omega)) (by decide)
    rw [hpush']
    simp only [Paje.fields, Option.map_some, Option.getD_some]
    rw [hsize, hmark, fit_of_length_lt hlen, fit_of_length_lt hlen']

/-- What a message carries. -/
theorem carries_of_decodes {e : Event} {id : UInt64} {dst size : UInt32} {mark : UInt64}
    (h : Event.Decodes id (rstEventIil akyPtpSend dst size mark) e) :
    carries e = true ∧ recorded e = [fmtNat size.toNat, fmtNat mark.toNat] := by
  have hsize : e.vUint32 1 = size := h.vUint32 1 (by simp [rstEventIil])
  have hmark : e.vUint64 0 = mark := h.vUint64 0 (by simp [rstEventIil])
  have harm : (arm akyPtpSend).sends = true := by decide +kernel
  refine ⟨?_, by rw [recorded, hsize, hmark]⟩
  simp only [carries, Bool.and_eq_true, decide_eq_true_iff]
  exact ⟨⟨by rw [h.type]; exact harm, h.nUint32⟩, h.nUint64⟩

theorem sizesKept_iff (args : Arguments) (cap : Option Nat) (es : List Event) :
    SizesKept (convert args cap es) ↔ args.noLinks = true ∨
      ∀ e ∈ reached args cap es, carries e = true → putKeys (individual e) ≠ [] → Short e := by
  cases hl : args.noLinks with
  | true =>
    -- there is no `StartLink` to speak of
    have hnone : ∀ round ∈ (convert args cap es).rounds, ∀ p ∈ pajes round.2,
        p.isStart = true → False := by
      intro round hround p hp hs
      have hlink : p ∈ (pajes round.2).filter Paje.isLink := List.mem_filter.mpr
        ⟨hp, by cases p <;> first | rfl | exact absurd hs (by simp [Paje.isStart])⟩
      rw [(convert_noLinks hl cap es round hround).1] at hlink
      exact absurd hlink (by simp)
    refine iff_of_true ⟨?_, ?_, ?_⟩ (Or.inl rfl)
    · exact fun round hr _ start hstart hs => (hnone round hr start hstart hs).elim
    · exact fun _ _ message hm _ _ _ _ _ _ _ _ _ _ start hstart hs =>
        (hnone message hm start hstart hs).elim
    · exact fun round hr _ _ _ _ _ _ start hstart _ _ hs _ => (hnone round hr start hstart hs).elim
  | false =>
    have hrounds := convert_linkRound hl cap es
    have hreach := convert_rounds args cap es
    constructor
    · intro h
      apply Or.inr
      intro e he hc hsend
      rw [← hreach, List.mem_map] at he
      obtain ⟨round, hr, rfl⟩ := he
      obtain ⟨start, hstart, hs⟩ := (hrounds round hr).exists_start hsend
      have hfull := h.full round hr hc start hstart hs
      rw [(hrounds round hr).start_fields hstart hs] at hfull
      exact (startFields_iff hc).mp hfull
    · rintro (hno | h)
      · exact absurd hno (by simp)
      · have hfull : ∀ round ∈ (convert args cap es).rounds, carries round.1 = true →
            ∀ start ∈ pajes round.2, start.isStart = true →
              start.fields = recorded round.1 := by
          intro round hr hc start hstart hs
          have he : round.1 ∈ reached args cap es := by
            rw [← hreach]
            exact List.mem_map_of_mem hr
          rw [(hrounds round hr).start_fields hstart hs, startFields_iff hc]
          exact h round.1 he hc ((hrounds round hr).putKeys_ne_nil hstart hs)
        refine ⟨hfull, ?_, ?_⟩
        · intro enter hin message hm id type dst size mark htype hdec hdec' push hpush start hstart hs
          obtain ⟨before, after, hstep⟩ := convert_step args cap es enter hin
          obtain ⟨hc, hrec⟩ := carries_of_decodes hdec'
          rw [push_fields hstep htype hdec hpush, hfull message hm hc start hstart hs, hrec]
        · intro round hr round' hr' hc hc' _ hne start hstart start' hstart' hs hs' heq
          rw [hfull round hr hc start hstart hs, hfull round' hr' hc' start' hstart' hs'] at heq
          exact hne (UInt64.toNat_inj.mp (fmtNat_inj (Option.some.inj heq)))

/-- **Size and mark survive exactly where both have five digits at most**, in every send event
    that the run writes a `StartLink` for. -/
theorem convert_sizesKept (args : Arguments) (es : List Event) :
    SizesKept (convert args (some (hcreateSize akyKeyTableSize)) es) ↔ args.noLinks = true ∨
      ∀ e ∈ reached args (some 1009) es,
        carries e = true → putKeys (individual e) ≠ [] → Short e := by
  rw [hcreateSize_akyKeyTableSize]
  exact sizesKept_iff args (some 1009) es

/-- A message of 100000 bytes. -/
def largeMessage : List Event := [.ofRecord 0 0 (rstEventIil akyPtpSend 1 100000 0)]

/-- Its `StartLink` says 10000. -/
theorem convert_not_sizesKept :
    ¬ SizesKept (convert ⟨false, false, false⟩ (some (hcreateSize akyKeyTableSize))
      largeMessage) := by
  rw [hcreateSize_akyKeyTableSize, sizesKept_iff]
  rintro (hno | h)
  · exact absurd hno (by simp)
  · have hpass : ∀ e ∈ largeMessage, passes ⟨false, false, false⟩ e = true := by decide +kernel
    have hreached : reached ⟨false, false, false⟩ (some 1009) largeMessage = largeMessage := by
      simp [reached, largeMessage, reachedFrom, hpass _ (List.mem_singleton.mpr rfl)]
    rw [hreached] at h
    exact absurd (h _ (List.mem_singleton.mpr rfl) (by decide +kernel) (by decide +kernel))
      (by decide +kernel)

end Converter
end Akypuera

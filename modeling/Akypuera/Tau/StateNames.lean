import Akypuera.Tau.Effects
import Akypuera.Lib.Registry

/-!
# Names that are cut in the table

With `normalize_mpi`, `EnterState` takes the name of a state from between quotes and before the
first bracket, and it does so **in the table**, where the quotes before the name stay. Whether it
does so again depends on what is left there. A name that starts with a quote and has lost its `MPI`
is pushed with the quote from the second time on (`names_steady_iff`).
-/

set_option autoImplicit false

namespace Akypuera
namespace Tau

open CText Search Keys

def sMpi : Str := "MPI".toList

/-- What `EnterState` leaves in the table, and pushes, where names are normalized. -/
def entered (text : Str) : Str × Str := if strstr text sMpi then normalize text else (text, text)

/-- The quotes before a text. -/
def quotes (text : Str) : Str := text.takeWhile (· == '"')

/-- A text from its first character that is no quote to the next quote or bracket. -/
def leading (text : Str) : Str :=
  (text.dropWhile (· == '"')).takeWhile fun c => c != '(' && c != '"'

/-- **Nothing is lost**: a name that starts with a quote still has its `MPI` when it is cut. -/
def KeepsMpi (text : Str) : Prop :=
  strstr text sMpi = true → text.head? = some '"' → strstr (leading text) sMpi = true

instance (text : Str) : Decidable (KeepsMpi text) := by unfold KeepsMpi; infer_instance

/-! ## Cutting twice -/

theorem normalize_eq (text : Str) : normalize text = (quotes text ++ leading text, leading text) := by
  have hcut : ((text.dropWhile (· == '"')).takeWhile (· != '"')).takeWhile (· != '(') =
      leading text := by
    rw [List.takeWhile_takeWhile, leading]
    refine congrArg (List.takeWhile · _) (funext fun c => ?_)
    rw [Bool.eq_iff_iff]
    simp
  rw [normalize, hcut, quotes]

theorem quotes_all (text : Str) : ∀ c ∈ quotes text, c = '"' := fun _ hc =>
  eq_of_beq (List.mem_takeWhile_imp (p := (· == '"')) hc)

theorem leading_all (text : Str) : ∀ c ∈ leading text, c ≠ '(' ∧ c ≠ '"' := by
  intro c hc
  have hboth := List.mem_takeWhile_imp (p := fun c => c != '(' && c != '"') hc
  rwa [Bool.and_eq_true, bne_iff_ne, bne_iff_ne] at hboth

/-- Quotes before a name that is already cut. -/
theorem cut_append {q name : Str} (hq : ∀ c ∈ q, c = '"') (hname : ∀ c ∈ name, c ≠ '(' ∧ c ≠ '"') :
    quotes (q ++ name) = q ∧ leading (q ++ name) = name := by
  have hquote : ∀ c ∈ q, (c == '"') = true := fun c hc => beq_iff_eq.mpr (hq c hc)
  rw [quotes, leading, List.takeWhile_append_of_pos hquote, List.dropWhile_append_of_pos hquote]
  have hself : name.takeWhile (fun c => c != '(' && c != '"') = name := by
    apply List.takeWhile_eq_self_iff.mpr
    intro c hc
    rw [Bool.and_eq_true, bne_iff_ne, bne_iff_ne]
    exact hname c hc
  cases name with
  | nil => simp
  | cons c name =>
    have hc : ¬ (c == '"') = true := fun hc =>
      (hname c List.mem_cons_self).2 (eq_of_beq hc)
    rw [List.takeWhile_cons_of_neg (p := (· == '"')) hc,
      List.dropWhile_cons_of_neg (p := (· == '"')) hc, List.append_nil, hself]
    exact ⟨rfl, rfl⟩

/-- **A text that was cut stays as it is.** -/
theorem normalize_cut (text : Str) :
    normalize (quotes text ++ leading text) = (quotes text ++ leading text, leading text) := by
  obtain ⟨hquotes, hleading⟩ := cut_append (quotes_all text) (leading_all text)
  rw [normalize_eq, hquotes, hleading]

/-- Quotes are no part of `MPI`. -/
theorem strstr_quotes {q : Str} (hq : ∀ c ∈ q, c = '"') (name : Str) :
    strstr (q ++ name) sMpi = strstr name sMpi := by
  induction q with
  | nil => rfl
  | cons c q ih =>
    rw [← ih fun c hc => hq c (List.mem_cons_of_mem _ hc), hq c List.mem_cons_self, strstr, strstr,
      decide_eq_decide, List.cons_append, List.infix_cons_iff]
    apply or_iff_right
    intro hstart
    exact absurd (List.cons_prefix_cons.mp hstart).1 (by decide)

theorem entered_of_strstr {text : Str} (h : strstr text sMpi = true) :
    entered text = (quotes text ++ leading text, leading text) := by
  rw [entered, if_pos h, normalize_eq]

theorem entered_of_not {text : Str} (h : strstr text sMpi = false) : entered text = (text, text) := by
  rw [entered, if_neg (by simp [h])]

/-- What is left of a name that had an `MPI`, entered again. -/
theorem entered_cut {text : Str} :
    entered (quotes text ++ leading text) = (quotes text ++ leading text,
      if strstr (leading text) sMpi then leading text else quotes text ++ leading text) := by
  have hleft := strstr_quotes (quotes_all text) (leading text)
  cases h : strstr (leading text) sMpi with
  | true => rw [entered, if_pos (hleft.trans h), normalize_cut, if_pos rfl]
  | false => rw [entered_of_not (hleft.trans h), if_neg (by simp)]

/-- **The second time leaves the text in the table as it is.** -/
theorem entered_entered (text : Str) : (entered (entered text).1).1 = (entered text).1 := by
  cases h : strstr text sMpi with
  | false => rw [entered_of_not h, entered_of_not h]
  | true => rw [entered_of_strstr h, entered_cut]

/-- **And pushes the same name exactly when nothing was lost.** -/
theorem entered_snd_iff (text : Str) :
    (entered (entered text).1).2 = (entered text).2 ↔ KeepsMpi text := by
  cases h : strstr text sMpi with
  | false =>
    rw [entered_of_not h, entered_of_not h]
    exact ⟨fun _ hmpi => absurd (h.symm.trans hmpi) (by simp), fun _ => rfl⟩
  | true =>
    rw [entered_of_strstr h, entered_cut]
    cases h' : strstr (leading text) sMpi with
    | true => exact ⟨fun _ _ _ => h', fun _ => rfl⟩
    | false =>
      -- the quotes are what is pushed besides the name
      have hquotes : quotes text = [] ↔ text.head? ≠ some '"' := by
        rw [quotes]
        cases text with
        | nil => simp
        | cons c text => by_cases hc : c = '"' <;> simp [hc]
      rw [if_neg (by simp), KeepsMpi, h', List.append_left_eq_self, hquotes]
      exact ⟨fun hne _ heq => absurd heq hne, fun himp heq => absurd (himp h heq) (by simp)⟩

/-! ## The names of a state -/

/-- The state that is entered. -/
def Callback.enters : Callback → Option UInt32
  | enterState _ _ _ stateid => some stateid
  | _ => none

def Paje.value : Paje → Option Str
  | pushState _ _ _ value => some value
  | _ => none

/-- The names that are pushed for a state. -/
def pushed (s : UInt32) (rounds : List (Callback × List Paje)) : List Str :=
  rounds.flatMap fun round => if round.1.enters = some s then round.2.filterMap Paje.value else []

/-- **Each of them is the first.** -/
def Steady (s : UInt32) (r : Run) : Prop :=
  ∀ name ∈ pushed s r.rounds, (pushed s r.rounds).head? = some name

/-- How often a state is entered after it was defined. -/
def entersFrom (args : Arguments) (s : UInt32) (hash : HTab Str Str) : List Callback → Nat
  | [] => 0
  | c :: cs => (if c.enters = some s ∧ (hash.find (stateKey s)).isSome then 1 else 0) +
      entersFrom args s (c.names args hash) cs

def entersKnown (args : Arguments) (s : UInt32) (cs : List Callback) : Nat :=
  entersFrom args s (HTab.create (some 1009)) cs

/-- The names that come of a text that is entered some times. -/
def namesOf : Str → Nat → List Str
  | _, 0 => []
  | text, n + 1 => (entered text).2 :: namesOf (entered text).1 n

theorem namesOf_settled {text : Str} (h : (entered text).1 = text) (n : Nat) :
    ∀ name ∈ namesOf text n, name = (entered text).2 := by
  induction n with
  | zero => exact nofun
  | succ n ih =>
    intro name hname
    rw [namesOf, h] at hname
    rcases List.mem_cons.mp hname with hname | hname
    · exact hname
    · exact ih name hname

/-- **They are the same** when nothing is lost, or there is one at most. -/
theorem namesOf_steady_iff (text : Str) (n : Nat) :
    (∀ name ∈ namesOf text n, (namesOf text n).head? = some name) ↔ KeepsMpi text ∨ n ≤ 1 := by
  match n with
  | 0 => exact ⟨fun _ => .inr (Nat.zero_le 1), fun _ => nofun⟩
  | 1 => simp [namesOf]
  | n + 2 =>
    have hrest := namesOf_settled (entered_entered text) (n + 1)
    rw [or_iff_left (by omega), ← entered_snd_iff]
    constructor
    · intro h
      have hsecond := h (entered (entered text).1).2 (by simp [namesOf])
      exact (Option.some.inj hsecond).symm
    · intro h name hname
      rw [namesOf, List.head?_cons]
      rcases List.mem_cons.mp hname with rfl | hname
      · rfl
      · rw [hrest name hname, h]

theorem stateKey_inj {s s' : UInt32} (h : stateKey s = stateKey s') : s = s' :=
  fit_fmtInt32_inj (p := []) (by decide) h

variable {args : Arguments} {st : State} {c : Callback} {done : Done} {s : UInt32} {text : Str}

/-- States are written. -/
def Arguments.states (args : Arguments) : Bool := !args.dummy && !args.noStates

theorem nameEntered_eq (hnormalize : args.normalizeMpi = true) (text : Str) :
    nameEntered args text = entered text := by
  rw [nameEntered, entered]
  by_cases hmpi : strstr text sMpi = true
  · rw [if_pos hmpi]
    exact if_pos ⟨hnormalize, hmpi⟩
  · rw [if_neg hmpi]
    exact if_neg fun h => hmpi h.2

/-- **A callback after a state was defined.** -/
theorem Effect.known (h : Effect args st c done) (hnormalize : args.normalizeMpi = true)
    (hfind : st.stateNameHash.find (stateKey s) = some text) :
    if c.enters = some s then
      done.state.stateNameHash.find (stateKey s) = some (entered text).1 ∧
        done.outs.filterMap Paje.value = if args.states then [(entered text).2] else []
    else done.state.stateNameHash.find (stateKey s) = some text := by
  cases h with
  | unknown hstate hnone =>
    rw [if_neg]
    · exact hfind
    · intro henters
      cases c with
      | enterState =>
        cases hstate
        cases henters
        exact absurd (hnone.symm.trans hfind) nofun
      | _ => cases henters
  | noLinks hop =>
    rw [if_neg]
    · exact hfind
    · intro henters
      cases c with
      | enterState => cases hop
      | _ => cases henters
  | enterState hfind' hlt =>
    split
    · next henters =>
      cases henters
      obtain rfl := Option.some.inj (hfind'.symm.trans hfind)
      rw [nameEntered_eq hnormalize]
      refine ⟨HTab.find_set_self _ _ _, ?_⟩
      cases hdummy : args.dummy <;> cases hstates : args.noStates <;>
        simp [Arguments.states, hdummy, hstates, Paje.value]
    · next henters =>
      have hne : stateKey s ≠ stateKey _ := fun heq => henters (congrArg some (stateKey_inj heq).symm)
      exact (HTab.find_set_ne _ _ hne).trans hfind
  | defState stateid statename group =>
    rw [if_neg nofun]
    show HTab.find (defineName args st.stateNameHash stateid statename) _ = _
    rw [defineName]
    split
    · exact hfind
    · exact HTab.find_enter_of_some hfind _ _
  | _ =>
    rw [if_neg nofun]
    exact hfind

/-- A callback keeps the names of the table, whatever texts are behind them. -/
theorem Effect.names (h : Effect args st c done) {hash : HTab Str Str}
    (hsame : HTab.SameKeys st.stateNameHash hash) :
    HTab.SameKeys done.state.stateNameHash (c.names args hash) := by
  cases h with
  | unknown hstate =>
    cases c with
    | enterState | leaveState => exact hsame
    | _ => cases hstate
  | noLinks hop =>
    cases c with
    | sendMessage | recvMessage => exact hsame
    | _ => cases hop
  | enterState hfind => exact hsame.set _ (by rw [hfind]; rfl)
  | defState stateid statename group =>
    simp only [Callback.names, defineName]
    split
    · exact hsame
    · exact hsame.enter _ _
  | _ => exact hsame

/-- **A callback before a state is defined.** If it defines the state, then under the name that the
    state has from there on. -/
theorem Effect.unknown_find (h : Effect args st c done) {hash : HTab Str Str}
    (hsame : HTab.SameKeys st.stateNameHash hash)
    (hfind : st.stateNameHash.find (stateKey s) = none) :
    done.state.stateNameHash.find (stateKey s) = (c.names args hash).find (stateKey s) ∧
      (c.enters = some s → done.outs = []) := by
  have hnone : hash.find (stateKey s) = none := by
    have hentry := hsame.entry (stateKey s)
    rw [hfind] at hentry
    exact Option.not_isSome_iff_eq_none.mp (by simp [← hentry])
  cases h with
  | unknown hstate =>
    cases c with
    | enterState | leaveState => exact ⟨hfind.trans hnone.symm, fun _ => rfl⟩
    | _ => cases hstate
  | noLinks hop =>
    cases c with
    | sendMessage | recvMessage =>
      exact ⟨hfind.trans hnone.symm, fun henters => by cases henters⟩
    | _ => cases hop
  | enterState hsome hlt =>
    refine ⟨?_, ?_⟩
    · have hne : stateKey s ≠ stateKey _ := fun heq => by
        rw [heq, hsome] at hfind
        cases hfind
      exact (HTab.find_set_ne _ _ hne).trans (hfind.trans hnone.symm)
    · intro henters
      cases henters
      cases hfind.symm.trans hsome
  | defState stateid statename group =>
    refine ⟨?_, fun henters => by cases henters⟩
    simp only [Callback.names, defineName]
    split
    · exact hfind.trans hnone.symm
    · by_cases hkey : stateKey s = stateKey stateid
      · -- both tables have room for it, or neither has
        have hfull : st.stateNameHash.full = hash.full := by
          simp only [HTab.full, hsame.size, hsame.filled]
        rw [hkey] at hfind hnone ⊢
        rw [HTab.enter_of_find_none _ hfind, HTab.enter_of_find_none _ hnone, hfull]
        cases hash.full with
        | true => exact hfind.trans hnone.symm
        | false => simp [HTab.find]
      · rw [HTab.find_enter_ne _ _ hkey, HTab.find_enter_ne _ _ hkey]
        exact hfind.trans hnone.symm
  | _ => exact ⟨hfind.trans hnone.symm, fun henters => by cases henters⟩

/-- What a `DefState` enters into the table. -/
def Callback.entry (args : Arguments) : Callback → Option (Str × Str)
  | defState stateid statename _ =>
      if args.onlyMpi ∧ ¬ strstr statename "MPI_".toList then none
      else some (stateKey stateid, statename)
  | _ => none

theorem names_eq (args : Arguments) (cs : List Callback) (hash : HTab Str Str) :
    cs.foldl (Callback.names args) hash = hash.defineAll (cs.filterMap (Callback.entry args)) := by
  induction cs generalizing hash with
  | nil => rfl
  | cons c cs ih =>
    rw [List.foldl_cons, ih]
    cases c with
    | defState stateid statename group =>
      rw [Callback.names, defineName]
      split
      · next hdropped =>
        have hentry : (Callback.defState stateid statename group).entry args = none :=
          if_pos hdropped
        rw [List.filterMap_cons_none hentry]
      · next hkept =>
        have hentry : (Callback.defState stateid statename group).entry args =
            some (stateKey stateid, statename) := if_neg hkept
        rw [List.filterMap_cons_some hentry]
        rfl
    | _ => rfl

/-- A name that is defined stays. -/
theorem find_names (cs : List Callback) {hash : HTab Str Str}
    (h : hash.find (stateKey s) = some text) :
    (cs.foldl (Callback.names args) hash).find (stateKey s) = some text := by
  rw [names_eq]
  exact HTab.find_defineAll_of_some h _

/-! ## Runs -/

theorem pushed_cons (s : UInt32) (c : Callback) (outs : List Paje)
    (rounds : List (Callback × List Paje)) :
    pushed s ((c, outs) :: rounds) =
      (if c.enters = some s then outs.filterMap Paje.value else []) ++ pushed s rounds :=
  List.flatMap_cons

/-- **From a text in the table on**, the names that are pushed are those that come of it. -/
theorem pushed_known (hnormalize : args.normalizeMpi = true) {cs : List Callback}
    {hash : HTab Str Str} (hhash : (hash.find (stateKey s)).isSome = true)
    (hfind : st.stateNameHash.find (stateKey s) = some text) :
    pushed s (run args st cs).rounds = if args.states then
      namesOf text (entersFrom args s hash ((run args st cs).rounds.map Prod.fst)) else [] := by
  induction cs generalizing st hash text with
  | nil => cases args.states <;> rfl
  | cons c cs ih =>
    cases hcall : c.call args st with
    | error stop =>
      rw [run_cons_error hcall]
      cases args.states <;> rfl
    | ok done =>
      have heff := (call_iff_effect.mp hcall).known hnormalize hfind
      have hnext : ((c.names args hash).find (stateKey s)).isSome = true := by
        obtain ⟨w, hw⟩ := Option.isSome_iff_exists.mp hhash
        exact Option.isSome_of_mem (find_names [c] hw)
      rw [run_cons_ok hcall, pushed_cons, List.map_cons]
      by_cases henters : c.enters = some s
      · rw [if_pos henters] at heff
        have hcount : c.enters = some s ∧ (hash.find (stateKey s)).isSome = true :=
          ⟨henters, hhash⟩
        rw [if_pos henters, heff.2, ih hnext heff.1, entersFrom, if_pos hcount, Nat.add_comm]
        cases args.states <;> rfl
      · rw [if_neg henters] at heff
        have hcount : ¬ (c.enters = some s ∧ (hash.find (stateKey s)).isSome = true) :=
          fun h => henters h.1
        rw [if_neg henters, ih hnext heff, entersFrom, if_neg hcount, Nat.zero_add, List.nil_append]

/-- **From before a state is defined on**, it is the name of its definition. -/
theorem pushed_unknown (hnormalize : args.normalizeMpi = true) {cs : List Callback}
    {hash : HTab Str Str} (hsame : HTab.SameKeys st.stateNameHash hash)
    (hfind : st.stateNameHash.find (stateKey s) = none)
    (htext : (cs.foldl (Callback.names args) hash).find (stateKey s) = some text) :
    pushed s (run args st cs).rounds = if args.states then
      namesOf text (entersFrom args s hash ((run args st cs).rounds.map Prod.fst)) else [] := by
  induction cs generalizing st hash with
  | nil => cases args.states <;> rfl
  | cons c cs ih =>
    cases hcall : c.call args st with
    | error stop =>
      rw [run_cons_error hcall]
      cases args.states <;> rfl
    | ok done =>
      have heff := call_iff_effect.mp hcall
      have hnone : (hash.find (stateKey s)).isSome = false := by
        rw [← hsame.entry, hfind]
        rfl
      obtain ⟨hagree, hquiet⟩ := heff.unknown_find hsame hfind
      have hhere : (if c.enters = some s then done.outs.filterMap Paje.value else []) = [] := by
        split
        · next henters => rw [hquiet henters]; rfl
        · rfl
      have hcount : ¬ (c.enters = some s ∧ (hash.find (stateKey s)).isSome = true) := by
        simp [hnone]
      rw [run_cons_ok hcall, pushed_cons, List.map_cons, entersFrom, hhere, if_neg hcount,
        Nat.zero_add, List.nil_append]
      cases hnext : (c.names args hash).find (stateKey s) with
      | none => exact ih (heff.names hsame) (hagree.trans hnext) htext
      | some name =>
        obtain rfl := Option.some.inj ((find_names cs hnext).symm.trans htext)
        exact pushed_known hnormalize (by rw [hnext]; rfl) (hagree.trans hnext)

/-- **Which names are steady.** With `normalize_mpi`, the names that are pushed for a state that was
    defined as `text` are all the same exactly when it keeps its `MPI` or is entered once at most,
    or no states are written. -/
theorem names_steady_iff (args : Arguments) (hnormalize : args.normalizeMpi = true) (resolution : ℚ)
    (cs : List Callback) (s : UInt32) (text : Str)
    (htext : (namesAfter args cs).find (stateKey s) = some text) :
    Steady s (run args (State.init resolution) cs) ↔ KeepsMpi text ∨ args.states = false ∨
      entersKnown args s ((run args (State.init resolution) cs).rounds.map Prod.fst) ≤ 1 := by
  have hsame : HTab.SameKeys (State.init resolution).stateNameHash (HTab.create (some 1009)) := by
    rw [State.init, StateOf.init, hcreateSize_1000]
    exact HTab.SameKeys.refl _
  have hpushed := @pushed_unknown args _ _ _ hnormalize _ _ hsame rfl htext
  rw [Steady, hpushed, entersKnown]
  cases args.states with
  | false => simp
  | true =>
    rw [if_pos rfl, namesOf_steady_iff]
    simp

/-- With `--normalize-mpi` alone. -/
def normalizing : Arguments := { plainly with normalizeMpi := true }

/-- A state that is entered twice. -/
def enteredTwice (name : Str) : List Callback :=
  [.defThread 0 0 "a".toList, .defState 7 name 1, .enterState 1 0 0 7, .leaveState 2 0 0 7,
    .enterState 3 0 0 7, .leaveState 4 0 0 7]

/-- An MPI function in quotes, with its parameters. -/
def mpiSendName : Str := "\"MPI_Send(int dest)\"".toList

theorem names_steady_iff_mpiSend :
    Steady 7 (run normalizing (State.init 0) (enteredTwice mpiSendName)) :=
  (names_steady_iff normalizing rfl 0 (enteredTwice mpiSendName) 7 mpiSendName
    (by decide +kernel)).mpr (.inl (by decide +kernel))

/-- A function that takes a communicator. -/
def exchangeName : Str := "\"exchange(MPI_Comm comm)\"".toList

/-- **It is pushed as `exchange` at first and then with the quote before it.** -/
theorem names_not_steady :
    (namesAfter normalizing (enteredTwice exchangeName)).find (stateKey 7) = some exchangeName ∧
      pushed 7 (run normalizing (State.init 0) (enteredTwice exchangeName)).rounds =
        ["exchange".toList, "\"exchange".toList] ∧
      ¬ Steady 7 (run normalizing (State.init 0) (enteredTwice exchangeName)) := by
  have hpushed : pushed 7 (run normalizing (State.init 0) (enteredTwice exchangeName)).rounds =
      ["exchange".toList, "\"exchange".toList] := by
    rw [State.init, StateOf.init, hcreateSize_1000, hcreateSize_akyKeyTableSize]
    decide +kernel
  refine ⟨by decide +kernel, hpushed, ?_⟩
  intro h
  rw [Steady, hpushed] at h
  exact absurd (h "\"exchange".toList (by decide)) (by decide)

end Tau
end Akypuera

import Coraza.Go.Strconv
import Coraza.Url
import Coraza.Waf.Transaction

/-!
# Urlencoded bodies

The names of a query are compared as they are spelt, those of the collection of arguments by
default in lower case, and `Set` replaces what the collection has for a name.
`urlencoded_args_iff` says when no argument is lost: when no two names of the body differ only
by what the collection does not see.
-/

namespace Coraza.BodyProcessors

open Go Collections Waf Maps List

def urlencodedProcessRequest (it : Iteration) (b : Bytes) (vars : Variables) : Variables :=
  let values := Url.parseQuery b 0x26
  let vars := vars.modifyMap .argsPost (fun argsCol => argsCol.setAll (it.entries values))
  (vars.setSingle .requestBody b).setSingle .requestBodyLength (Strconv.itoa b.length)

theorem urlencodedProcessRequest_argsPost (it : Iteration) (b : Bytes) (vars : Variables) :
    (urlencodedProcessRequest it b vars).map .argsPost
      = (vars.map .argsPost).setAll (it.entries (Url.parseQuery b 0x26)) := by
  unfold urlencodedProcessRequest
  rw [Variables.setSingle_map, Variables.setSingle_map, Variables.modifyMap_map_self]

/-- `urlencodedBodyProcessor`.  It does nothing for responses. -/
def urlencodedBodyProcessor (iteration : Nat → Iteration) : BodyProcessor where
  processRequest n body _ vars := (urlencodedProcessRequest (iteration n) body vars, none)
  processResponse _ _ _ vars := (vars, none)
  contentType := fun _ _ _ _ => rfl

/-! ### The entries of the parsed query -/

section

variable (it : Iteration) (l : List (Bytes × Bytes))

theorem mem_entries_group {e : Bytes × List Bytes} :
    e ∈ it.entries (group l) ↔ e.2 ≠ [] ∧ e.2 = valuesOf l e.1 := by
  rw [it.mem_entries, lookup_group]
  split_ifs with hnil
  · exact ⟨False.elim, fun h => absurd (h.2.trans hnil) h.1⟩
  · refine ⟨fun h => ?_, fun h => congrArg some h.2.symm⟩
    have heq := (Option.some.inj h).symm
    exact ⟨fun h' => hnil (heq.symm.trans h'), heq⟩

theorem mem_entries_of_mem {p : Bytes × Bytes} (hp : p ∈ l) :
    (p.1, valuesOf l p.1) ∈ it.entries (group l) := by
  refine (mem_entries_group it l).mpr ⟨?_, rfl⟩
  refine ne_nil_of_mem (a := p.2) ?_
  exact mem_map.mpr ⟨p, mem_filter.mpr ⟨hp, by simp⟩, rfl⟩

end

/-! ### The arguments -/

section

variable (it : Iteration) {m : Map} (hm : m.data = ∅) (l : List (Bytes × Bytes))

include hm

/-- The pairs of a name are those of the name that was set last among the names that the
collection does not tell apart. -/
theorem count_setAll (p : Bytes × Bytes) : (m.setAll (it.entries (group l))).pairs.count ⟨p.1, p.2⟩
      = ((lastAt ((it.entries (group l)).map m.filing) (m.fold p.1)).getD []).count
          ⟨p.1, p.2⟩ := by
  have hfold : (m.setAll (it.entries (group l))).fold p.1 = m.fold p.1 := by
    rw [Map.setAll_eq]
    rfl
  rw [Map.count_pairs (Map.filed_setAll hm _), hfold, Map.values_setAll hm]

omit hm in
theorem lastAt_filing {p : Bytes × Bytes} (hp : p ∈ l) :
    ∃ k, k ∈ l.map Prod.fst ∧ m.fold k = m.fold p.1 ∧
      lastAt ((it.entries (group l)).map m.filing) (m.fold p.1)
        = some ((valuesOf l k).map (fun v => ⟨k, v⟩)) := by
  have hsome : (lastAt ((it.entries (group l)).map m.filing) (m.fold p.1)).isSome = true := by
    refine lastAt_isSome.mpr ?_
    rw [map_map]
    exact mem_map.mpr ⟨_, mem_entries_of_mem it l hp, rfl⟩
  obtain ⟨kvs, hlast⟩ := Option.isSome_iff_exists.mp hsome
  obtain ⟨⟨k, vs⟩, he, hfiling⟩ := mem_map.mp (mem_of_lastAt hlast)
  obtain ⟨hfold, hkvs⟩ := Prod.mk.inj hfiling
  obtain ⟨hne, hvs⟩ := (mem_entries_group it l).mp he
  dsimp only at hne hvs hfold hkvs
  refine ⟨k, ?_, hfold, ?_⟩
  · obtain ⟨v, hv⟩ := exists_mem_of_ne_nil vs hne
    rw [hvs] at hv
    obtain ⟨q, hq, -⟩ := mem_map.mp hv
    obtain ⟨hq, hqk⟩ := mem_filter.mp hq
    exact mem_map.mpr ⟨q, hq, of_decide_eq_true hqk⟩
  · rw [hlast, ← hkvs, hvs]

theorem count_setAll_iff :
    (∀ p ∈ l, (m.setAll (it.entries (group l))).pairs.count ⟨p.1, p.2⟩ = l.count p) ↔
      ∀ p ∈ l, ∀ q ∈ l, m.fold p.1 = m.fold q.1 → p.1 = q.1 := by
  constructor
  · intro hcount p hp q hq hfold
    obtain ⟨k, -, -, hlast⟩ := lastAt_filing it l (m := m) hp
    -- a pair that is kept has the name that was set last
    have hkept : ∀ p' ∈ l, m.fold p'.1 = m.fold p.1 → p'.1 = k := by
      intro p' hp' hfold'
      have hpos : 0 < l.count p' := count_pos_iff.mpr hp'
      rw [← hcount p' hp', count_setAll it hm l, hfold', hlast] at hpos
      obtain ⟨v, -, heq⟩ := mem_map.mp (count_pos_iff.mp hpos)
      exact (KeyValue.mk.inj heq).1.symm
    rw [hkept p hp rfl, hkept q hq hfold.symm]
  · intro hinj p hp
    obtain ⟨k, hk, hfold, hlast⟩ := lastAt_filing it l (m := m) hp
    obtain ⟨q, hq, rfl⟩ := mem_map.mp hk
    rw [hinj q hq p hp hfold] at hlast
    have hpair : Function.Injective (fun v : Bytes => (⟨p.1, v⟩ : KeyValue)) := fun v w h =>
      (KeyValue.mk.inj h).2
    rw [count_setAll it hm l, hlast]
    calc ((valuesOf l p.1).map (fun v => (⟨p.1, v⟩ : KeyValue))).count ⟨p.1, p.2⟩
        = (valuesOf l p.1).count p.2 := count_map_of_injective _ _ hpair _
      _ = l.count p := count_valuesOf l p.1 p.2

end

/-- **When an urlencoded body loses no argument.**  Every pair of the decoded body occurs in
the collection as often as in the body if and only if no two names of the body are spelt
differently and filed under the same key. -/
theorem urlencoded_args_iff (iteration : Nat → Iteration) (n : Nat) (body : Bytes)
    (options : BodyProcessorOptions) {vars : Variables} (hempty : (vars.map .argsPost).data = ∅) :
    (∀ p ∈ Url.decoded body 0x26 true,
      ((((urlencodedBodyProcessor iteration).processRequest n body options vars).1.map
        .argsPost).pairs.count ⟨p.1, p.2⟩ = (Url.decoded body 0x26 true).count p)) ↔
      ∀ p ∈ Url.decoded body 0x26 true, ∀ q ∈ Url.decoded body 0x26 true,
        (vars.map .argsPost).fold p.1 = (vars.map .argsPost).fold q.1 → p.1 = q.1 := by
  have hargs : ((urlencodedBodyProcessor iteration).processRequest n body options vars).1.map
      .argsPost = (vars.map .argsPost).setAll
        ((iteration n).entries (group (Url.decoded body 0x26 true))) := by
    rw [← Url.doParseQuery_eq]
    exact urlencodedProcessRequest_argsPost (iteration n) body vars
  rw [hargs]
  exact count_setAll_iff (iteration n) hempty _

/-- Names that differ in more than case are all kept. -/
theorem urlencoded_args_distinct : (Url.decoded (bytesOf "a=1&b=2&a=3") 0x26 true).length = 3 ∧
    (∀ p ∈ Url.decoded (bytesOf "a=1&b=2&a=3") 0x26 true,
      ((((urlencodedBodyProcessor (fun _ => .stored)).processRequest 0 (bytesOf "a=1&b=2&a=3")
        ⟨[], [], 0⟩ .new).1.map .argsPost).pairs.count ⟨p.1, p.2⟩
          = (Url.decoded (bytesOf "a=1&b=2&a=3") 0x26 true).count p)) :=
  ⟨by decide +kernel,
    (urlencoded_args_iff (fun _ => .stored) 0 _ ⟨[], [], 0⟩ rfl).mpr (by decide +kernel)⟩

/-- **Of two names that differ in case one is lost.** -/
theorem urlencoded_args_case : Url.decoded (bytesOf "a=1&A=2") 0x26 true
        = [(bytesOf "a", bytesOf "1"), (bytesOf "A", bytesOf "2")] ∧
      (((urlencodedBodyProcessor (fun _ => .stored)).processRequest 0 (bytesOf "a=1&A=2")
        ⟨[], [], 0⟩ .new).1.map .argsPost).pairs.length = 1 := by
  decide +kernel

end Coraza.BodyProcessors

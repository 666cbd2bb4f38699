import Coro.Proofs.Parser.Words

/-!
Paths can be read off the texts that they are written as.

No name has a period, so the periods of a dotted path stand between its names. In a symbol the
names are kept apart by two underscores, which stand nowhere else: a name has no such pair, and does
not end in an underscore.
-/

namespace Coro

/-- A name can be joined with others. -/
structure Joinable (name : String) : Prop where
  word : IsWord name
  /-- No two underscores stand side by side. -/
  single : hasDoubleUnderscore name.toList = false
  /-- The last character is no underscore. -/
  ending : name.toList.getLast? ≠ some '_'
  /-- The generated file does not use the name for itself. -/
  foreign : ¬ "hilos_".toList <+: name.toList

/-- A word that may be declared can be joined with others. -/
theorem joinable_of_allowed {name : String} (free : isReserved name = false)
    (word : IsWord name) : Joinable name := by
  simp only [isReserved, Bool.or_eq_false_iff, beq_eq_false_iff_ne] at free
  -- An underscore at the start would do no harm, so this test is not needed here.
  obtain ⟨⟨⟨⟨single, -⟩, ending⟩, foreign⟩, -⟩ := free
  refine ⟨word, single, ending, fun start => ?_⟩
  rw [List.isPrefixOf_iff_prefix.mpr start] at foreign
  cases foreign

theorem joinable_main : Joinable "main" :=
  ⟨⟨by simp, by simp; decide⟩, by simp [hasDoubleUnderscore], by simp, by simp⟩

theorem hasDoubleUnderscore_append (front rest : List Char) :
    hasDoubleUnderscore (front ++ '_' :: '_' :: rest) = true := by
  induction front with
  | nil => rfl
  | cons c front ih =>
    rw [List.cons_append]
    -- A pair at the very start is found at once, and any other one later.
    unfold hasDoubleUnderscore
    split
    · rename_i empty
      cases empty
    · rfl
    · rename_i same
      cases same
      exact ih

/-- The first name of a symbol ends where two underscores stand for the first time. -/
theorem first_name_unique {one other : String} (left : Joinable one) (right : Joinable other)
    {rest more : List Char}
    (same : one.toList ++ '_' :: '_' :: rest = other.toList ++ '_' :: '_' :: more) :
    one = other ∧ rest = more := by
  -- A longer name would take in the first underscore, and then it ends there or has both.
  have short : ∀ {name longer : String} {extra rest more : List Char}, Joinable longer →
      longer.toList = name.toList ++ extra → '_' :: '_' :: rest = extra ++ '_' :: '_' :: more →
      extra = [] := by
    intro name longer extra rest more fine taken same
    cases extra with
    | nil => rfl
    | cons c extra =>
      obtain ⟨rfl, tail⟩ := List.cons.inj (same.trans List.cons_append)
      cases extra with
      | nil => exact absurd (by simp [taken]) fine.ending
      | cons d extra =>
        obtain ⟨rfl, -⟩ := List.cons.inj (tail.trans List.cons_append)
        have found := fine.single
        rw [taken, hasDoubleUnderscore_append] at found
        cases found
  rcases List.append_eq_append_iff.mp same with ⟨extra, taken, rest⟩ | ⟨extra, taken, rest⟩
  · obtain rfl := short right taken rest
    exact ⟨String.toList_inj.mp (by simpa using taken.symm), by simpa using rest⟩
  · obtain rfl := short left taken rest
    exact ⟨String.toList_inj.mp (by simpa using taken), by simpa using rest.symm⟩

namespace Path

theorem toList_symbol (path : Path) :
    path.symbol.toList = ['_', '_'].intercalate (path.names.map String.toList) := by
  simp [symbol, String.toList_intercalate]

/-- A path leads somewhere, by names that can be joined. -/
structure Joined (path : Path) : Prop where
  filled : path.names ≠ []
  names : ∀ name ∈ path.names, Joinable name

variable {one other : Path}

theorem Joined.dotted_inj (left : one.Joined) (right : other.Joined)
    (same : one.dotted = other.dotted) : one = other := by
  -- Cutting at the periods gives the names back, as none of them has one.
  have readBack : ∀ {path : Path}, path.Joined →
      path.dotted.toList.splitOn '.' = path.names.map String.toList := by
    intro path joined
    rw [dotted, String.toList_intercalate]
    refine List.splitOn_intercalate '.' (fun chars member inside => ?_)
      (by simpa using joined.filled)
    obtain ⟨name, listed, rfl⟩ := List.mem_map.mp member
    exact absurd ((joined.names name listed).word.2 '.' inside) (by decide)
  have names : one.names.map String.toList = other.names.map String.toList := by
    rw [← readBack left, ← readBack right, same]
  cases one
  cases other
  exact congrArg Path.mk ((List.map_inj_right fun _ _ => String.toList_inj.mp).mp names)

theorem symbol_names_inj : ∀ {one other : List String}, one ≠ [] → other ≠ [] →
    (∀ name ∈ one, Joinable name) → (∀ name ∈ other, Joinable name) →
    ['_', '_'].intercalate (one.map String.toList) =
      ['_', '_'].intercalate (other.map String.toList) → one = other
  | [], _, filled, _, _, _, _ => absurd rfl filled
  | _, [], _, filled, _, _, _ => absurd rfl filled
  | [name], [other], _, _, _, _, same => by
    simpa [String.toList_inj] using same
  | [name], other :: second :: rest, _, _, left, _, same => by
    -- A single name has no two underscores, so it is not two names.
    have single := (left name List.mem_cons_self).single
    simp only [List.map_cons, List.map_nil, List.intercalate_singleton,
      List.intercalate_cons_cons, List.append_assoc] at same
    rw [same] at single
    exact absurd single (by simp [hasDoubleUnderscore_append])
  | name :: second :: rest, [other], _, _, _, right, same => by
    have single := (right other List.mem_cons_self).single
    simp only [List.map_cons, List.map_nil, List.intercalate_singleton,
      List.intercalate_cons_cons, List.append_assoc] at same
    rw [← same] at single
    exact absurd single (by simp [hasDoubleUnderscore_append])
  | name :: second :: rest, other :: third :: more, _, _, left, right, same => by
    simp only [List.map_cons, List.intercalate_cons_cons, List.append_assoc] at same
    obtain ⟨rfl, same⟩ := first_name_unique (left name List.mem_cons_self)
      (right other List.mem_cons_self) same
    have later := symbol_names_inj (List.cons_ne_nil second rest) (List.cons_ne_nil third more)
      (fun name member => left name (List.mem_cons_of_mem _ member))
      (fun name member => right name (List.mem_cons_of_mem _ member)) (by simpa using same)
    rw [later]

theorem Joined.symbol_inj (left : one.Joined) (right : other.Joined)
    (same : one.symbol = other.symbol) : one = other := by
  have texts := congrArg String.toList same
  rw [toList_symbol, toList_symbol] at texts
  cases one
  cases other
  exact congrArg Path.mk (symbol_names_inj left.filled right.filled left.names right.names texts)

/-- A symbol is none of those that the generated file uses for itself. -/
theorem Joined.symbol_foreign {path : Path} (joined : path.Joined) {c : Char} (letter : c ≠ '_')
    (rest : List Char) : path.symbol.toList ≠ "hilos_".toList ++ c :: rest := by
  -- The first name alone is compared with the mark.
  obtain ⟨names⟩ := path
  rw [toList_symbol]
  intro same
  cases names with
  | nil => exact joined.filled rfl
  | cons name others =>
    have foreign := (joined.names name List.mem_cons_self).foreign
    cases others with
    | nil =>
      have start : "hilos_".toList <+: name.toList := ⟨c :: rest, by simpa using same.symm⟩
      exact foreign start
    | cons second others =>
      simp only [List.map_cons, List.intercalate_cons_cons, List.append_assoc] at same
      rcases List.append_eq_append_iff.mp same with ⟨behind, taken, after⟩ | ⟨behind, taken, -⟩
      · -- The underscores behind a shorter name would both be part of the mark, or be followed
        -- by none of its letters.
        cases behind with
        | nil => exact letter (List.cons.inj after).1.symm
        | cons first behind =>
          obtain ⟨rfl, tail⟩ := List.cons.inj (after.trans List.cons_append)
          cases behind with
          | nil => exact letter (List.cons.inj tail).1.symm
          | cons next behind =>
            obtain ⟨rfl, -⟩ := List.cons.inj (tail.trans List.cons_append)
            have pair := hasDoubleUnderscore_append name.toList behind
            rw [← taken] at pair
            simp [hasDoubleUnderscore] at pair
      · exact foreign ⟨behind, taken.symm⟩

end Path

namespace Naming.Orderly

variable {known : Naming} {owner : Owner} {path : Path}

variable (orderly : known.Orderly IsWord)

include orderly

theorem joinable {name : String} {entity : Entity}
    (declared : known.Declares owner name entity) : Joinable name := by
  obtain ⟨free, word⟩ := (orderly.apart owner).allowed name entity declared
  exact joinable_of_allowed free word

/-- All names on the way to a body can be joined. -/
theorem around_joinable (found : known.path? owner = some path) :
    ∀ name ∈ path.names, Joinable name := by
  -- The body around it has a shorter path.
  generalize size : path.names.length = n
  induction n using Nat.strong_induction_on generalizing owner path with
  | _ n ih =>
    rcases orderly.rooted.body_places found with ⟨-, rfl⟩ | ⟨-, rfl⟩ | ⟨outer, entity, -, placed⟩
    · simp
    · simpa [Path.ofName] using joinable_main
    · obtain ⟨around, name, leads, rfl, declared⟩ := placed
      have shorter : around.names.length < n := by simp [← size, Path.member]
      intro other member
      rcases List.mem_append.mp member with early | last
      · exact ih _ shorter leads rfl other early
      · exact List.mem_singleton.mp last ▸ orderly.joinable declared

/-- The path of an entity is made of names that can be joined. -/
theorem joined {entity : Entity} (placed : known.Places path owner entity) : path.Joined := by
  obtain ⟨around, name, leads, rfl, declared⟩ := placed
  refine ⟨by simp [Path.member], fun other member => ?_⟩
  rcases List.mem_append.mp member with early | last
  · exact orderly.around_joinable leads other early
  · exact List.mem_singleton.mp last ▸ orderly.joinable declared

end Naming.Orderly

end Coro

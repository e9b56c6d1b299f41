import SDRoute.Algorithm.OwnTrees

/-! Invariants that say nothing about who is in a population: they hold of a whole evolution if
they hold of the evaluation of one individual and of the creation of a new one. -/
namespace SDRoute.NSGA2

variable {nx : NetworkX} {I : NSGA2 → Prop} {i self ind fuel : ℕ}

/-- The individuals differ in their fitness and in the marks of the sorting at most. -/
structure SamePaths (a b : Individual) : Prop where
  srcNode : b.srcNode = a.srcNode
  dstNode : b.dstNode = a.dstNode
  edgeAllList : b.edgeAllList = a.edgeAllList
  paths : b.paths = a.paths
  graph : b.graph = a.graph

theorem SamePaths.rfl (a : Individual) : SamePaths a a := ⟨Eq.refl _, Eq.refl _, Eq.refl _,
  Eq.refl _, Eq.refl _⟩

/-- The invariant does not look at draws, populations, genes and marks, and takes copies for what
they are copies of. -/
structure Framed (I : NSGA2 → Prop) : Prop where
  draw : ∀ s rng, I s → I { s with rng }
  write : ∀ s i ind, SamePaths (s.objects i) ind → I s → I (s.write i ind)
  genes : ∀ s chromosomes, I s → I { s with chromosomes }
  populations : ∀ s currentPopulation externalPopulation, I s →
    I { s with currentPopulation, externalPopulation }
  copy : ∀ s i, I s → I (s.allocate (s.objects i))

theorem keeps_readGene {x : ℕ} : Py.Keeps I (gene i x) :=
  Py.Keeps.bind Py.Keeps.get fun _ => Py.Keeps.ofOption _ _

theorem keeps_sortBy (list : List ℕ) (key : SortKey) : Py.Keeps I (objectSort list key) :=
  Py.Keeps.bind Py.Keeps.get fun _ => Py.Keeps.pure _

namespace Framed
variable (hI : Framed I)
include hI

theorem keeps_random : Py.Keeps I random := NSGA2.keeps_random hI.draw

theorem keeps_update {f : Individual → Individual} (hf : ∀ ind, SamePaths ind (f ind)) :
    Py.Keeps I (update i f) :=
  Py.Keeps.modify fun s h => hI.write s i _ (hf _) h

theorem keeps_setChromosome (f : List Bool → List Bool) : Py.Keeps I (setChromosome i f) :=
  Py.Keeps.modify fun s h => hI.genes s _ h

theorem keeps_current (f : NSGA2 → List ℕ) :
    Py.Keeps I (modify fun s => { s with currentPopulation := f s }) :=
  Py.Keeps.modify fun s h => hI.populations s (f s) s.externalPopulation h

theorem keeps_external (f : NSGA2 → List ℕ) :
    Py.Keeps I (modify fun s => { s with externalPopulation := f s }) :=
  Py.Keeps.modify fun s h => hI.populations s s.currentPopulation (f s) h

theorem keeps_copy : Py.Keeps I (NSGA2.copy i) := fun s h => hI.copy s i h

theorem keeps_setGene {x : ℕ} {b : Bool} : Py.Keeps I (setGene i x b) :=
  Py.Keeps.bind keeps_readGene fun _ => hI.keeps_setChromosome _

theorem keeps_flip {x : ℕ} : Py.Keeps I (flip i x) :=
  Py.Keeps.bind keeps_readGene fun _ => hI.keeps_setGene

theorem keeps_calFitness : Py.Keeps I (calFitness i) := by
  refine Py.Keeps.bind Py.Keeps.get fun s => ?_
  refine Py.Keeps.bind (Py.Keeps.ofExcept _) fun sum => ?_
  refine Py.Keeps.ite ?_ ?_
  · exact Py.Keeps.bind (Py.Keeps.throw _) fun _ =>
      hI.keeps_update fun _ => ⟨rfl, rfl, rfl, rfl, rfl⟩
  · exact hI.keeps_update fun _ => ⟨rfl, rfl, rfl, rfl, rfl⟩

/-! The sorting. -/

theorem keeps_clearProperty : Py.Keeps I (update i Individual.clearProperty) :=
  hI.keeps_update fun _ => ⟨rfl, rfl, rfl, rfl, rfl⟩

theorem keeps_compare (indPre ind : ℕ) : Py.Keeps I (compare indPre ind) := by
  refine Py.Keeps.bind Py.Keeps.get fun s => ?_
  refine Py.Keeps.ite ?_ ?_
  · exact hI.keeps_update fun _ => ⟨rfl, rfl, rfl, rfl, rfl⟩
  · exact Py.Keeps.ite (hI.keeps_update fun _ => ⟨rfl, rfl, rfl, rfl, rfl⟩) (Py.Keeps.pure _)

theorem keeps_compareWithAll (unionList first : List ℕ) (indPre : ℕ) :
    Py.Keeps I (compareWithAll unionList first indPre) := by
  refine Py.Keeps.bind (Py.Keeps.forM fun ind _ => hI.keeps_compare indPre ind) fun _ => ?_
  refine Py.Keeps.bind Py.Keeps.get fun s => ?_
  refine Py.Keeps.ite ?_ (Py.Keeps.pure _)
  exact Py.Keeps.bind (hI.keeps_update fun _ => ⟨rfl, rfl, rfl, rfl, rfl⟩) fun _ =>
    Py.Keeps.pure _

theorem keeps_countDown (front : List ℕ) (dominated : ℕ) :
    Py.Keeps I (countDown front dominated) := by
  refine Py.Keeps.bind (hI.keeps_update fun _ => ⟨rfl, rfl, rfl, rfl, rfl⟩) fun _ => ?_
  refine Py.Keeps.bind Py.Keeps.get fun s => ?_
  refine Py.Keeps.ite ?_ (Py.Keeps.pure _)
  exact Py.Keeps.bind (hI.keeps_update fun _ => ⟨rfl, rfl, rfl, rfl, rfl⟩) fun _ =>
    Py.Keeps.pure _

theorem keeps_nextFront (front : List ℕ) : Py.Keeps I (nextFront front) := by
  refine Py.Keeps.foldlM (fun next current _ => ?_) _
  exact Py.Keeps.bind Py.Keeps.get fun s => Py.Keeps.foldlM
    (fun front dominated _ => hI.keeps_countDown front dominated) _

theorem keeps_fronts (n : ℕ) (front : List ℕ) : Py.Keeps I (fronts n front) := by
  induction n generalizing front with
  | zero => exact Py.Keeps.throw _
  | succ n ih =>
    refine Py.Keeps.ite (Py.Keeps.pure _) ?_
    refine Py.Keeps.bind (hI.keeps_nextFront front) fun next => ?_
    refine Py.Keeps.ite (Py.Keeps.pure _) ?_
    exact Py.Keeps.bind (ih next) fun _ => Py.Keeps.pure _

theorem keeps_fastNondominateSort (popList : List ℕ) :
    Py.Keeps I (fastNondominateSort popList) := by
  refine Py.Keeps.bind (Py.Keeps.forM fun ind _ => hI.keeps_clearProperty) fun _ => ?_
  refine Py.Keeps.bind (Py.Keeps.foldlM
    (fun first ind _ => hI.keeps_compareWithAll popList first ind) _) fun first => ?_
  exact hI.keeps_fronts _ first

theorem keeps_addDistance {value : Individual → ℚ} {front : List ℕ} {span : ℚ} :
    Py.Keeps I (addDistance value front span i) := by
  refine Py.Keeps.bind (Py.Keeps.ofOption _ _) fun previous => ?_
  refine Py.Keeps.bind (Py.Keeps.ofOption _ _) fun ind => ?_
  refine Py.Keeps.bind (Py.Keeps.ofOption _ _) fun next => ?_
  refine Py.Keeps.ite (Py.Keeps.bind (Py.Keeps.throw _) fun _ => ?_) ?_
  all_goals
    exact Py.Keeps.bind Py.Keeps.get fun s => hI.keeps_update fun _ => ⟨rfl, rfl, rfl, rfl, rfl⟩

theorem keeps_addDistances {key : SortKey} {value : Individual → ℚ} {span : ℚ → ℚ → ℚ}
    {front : List ℕ} : Py.Keeps I (addDistances key value span front) := by
  refine Py.Keeps.bind (keeps_sortBy front key) fun sorted => ?_
  refine Py.Keeps.bind Py.Keeps.get fun s => ?_
  refine Py.Keeps.bind (Py.Keeps.ofOption _ _) fun least => ?_
  refine Py.Keeps.bind (Py.Keeps.ofOption _ _) fun greatest => ?_
  exact Py.Keeps.bind (Py.Keeps.forM fun i _ => hI.keeps_addDistance) fun _ => Py.Keeps.pure _

theorem keeps_crowdFront (front : List ℕ) : Py.Keeps I (crowdFront front) := by
  refine Py.Keeps.ite ?_ ?_
  · refine Py.Keeps.bind (Py.Keeps.forM fun ind _ => ?_) fun _ => keeps_sortBy _ _
    exact hI.keeps_update fun _ => ⟨rfl, rfl, rfl, rfl, rfl⟩
  · exact Py.Keeps.bind hI.keeps_addDistances fun _ => Py.Keeps.bind hI.keeps_addDistances
      fun _ => keeps_sortBy _ _

/-! A generation. -/

theorem keeps_makeNewPopulation : Py.Keeps I makeNewPopulation := by
  refine Py.Keeps.bind Py.Keeps.get fun s => ?_
  refine Py.Keeps.bind (Py.Keeps.forM fun ind _ => hI.keeps_clearProperty) fun _ => ?_
  refine Py.Keeps.bind (hI.keeps_fastNondominateSort _) fun fs => ?_
  refine Py.Keeps.bind (Py.Keeps.mapM fun front _ => hI.keeps_crowdFront front) fun sorted => ?_
  refine Py.Keeps.bind (hI.keeps_current _) fun _ => ?_
  refine Py.Keeps.forM fun i _ => ?_
  exact Py.Keeps.bind (Py.Keeps.ofOption _ _) fun ind => hI.keeps_current _

theorem keeps_selectOne : Py.Keeps I (selectOne fuel) := by
  refine Py.Keeps.bind Py.Keeps.get fun s => ?_
  refine Py.Keeps.bind (keeps_drawPair hI.draw _ _) fun xy => ?_
  refine Py.Keeps.bind (Py.Keeps.ofOption _ _) fun i => ?_
  refine Py.Keeps.bind hI.keeps_copy fun ind1 => ?_
  refine Py.Keeps.bind (Py.Keeps.ofOption _ _) fun j => ?_
  refine Py.Keeps.bind hI.keeps_copy fun ind2 => ?_
  exact Py.Keeps.bind Py.Keeps.get fun s => hI.keeps_current _

theorem keeps_crossover (heval : ∀ i, Py.Keeps I (fitnessEvaluate nx i))
    {exchanges : ℕ → Py NSGA2 Bool} (hexchanges : ∀ x, Py.Keeps I (exchanges x)) :
    Py.Keeps I (crossover nx exchanges self ind) := by
  refine Py.Keeps.bind Py.Keeps.get fun s => ?_
  refine Py.Keeps.bind (Py.Keeps.forM fun x _ => ?_) fun _ =>
    Py.Keeps.bind (heval self) fun _ => heval ind
  refine Py.Keeps.bind (hexchanges x) fun exchanged => ?_
  have hflip : Py.Keeps I (do
      let r ← random
      if r < 8 / 100 then do
        flip self x
        flip ind x) :=
    Py.Keeps.bind hI.keeps_random fun r => Py.Keeps.ite
      (Py.Keeps.bind hI.keeps_flip fun _ => hI.keeps_flip) (Py.Keeps.pure _)
  refine Py.Keeps.ite ?_ hflip
  refine Py.Keeps.bind keeps_readGene fun b => ?_
  refine Py.Keeps.bind hI.keeps_setGene fun _ => ?_
  exact Py.Keeps.bind (Py.Keeps.ofOption _ _) fun _ =>
    Py.Keeps.bind hI.keeps_setGene fun _ => hflip

theorem keeps_crossPair (heval : ∀ i, Py.Keeps I (fitnessEvaluate nx i)) (i : ℕ) :
    Py.Keeps I (crossPair nx i) := by
  have hcrosses : ∀ pc draws, Py.Keeps I (crosses pc draws) := fun pc draws =>
    Py.Keeps.bind hI.keeps_random fun _ => Py.Keeps.ite
      (Py.Keeps.bind hI.keeps_random fun _ => Py.Keeps.pure _) (Py.Keeps.pure _)
  have hsingle : ∀ self ind, Py.Keeps I (singlePointCrossover nx self ind) := fun self ind =>
    Py.Keeps.bind Py.Keeps.get fun _ => Py.Keeps.bind (keeps_randint hI.draw _ _) fun _ =>
      hI.keeps_crossover heval fun _ => Py.Keeps.pure _
  have huniform : ∀ self ind, Py.Keeps I (uniformCrossover nx self ind) := fun self ind =>
    hI.keeps_crossover heval fun _ => Py.Keeps.bind hI.keeps_random fun _ => Py.Keeps.pure _
  refine Py.Keeps.bind Py.Keeps.get fun s => ?_
  refine Py.Keeps.bind (hcrosses _ _) fun single => ?_
  refine Py.Keeps.ite ?_ ?_
  · exact Py.Keeps.bind (Py.Keeps.ofOption _ _) fun _ =>
      Py.Keeps.bind (Py.Keeps.ofOption _ _) fun _ => hsingle _ _
  · refine Py.Keeps.bind (hcrosses _ _) fun uniform => ?_
    refine Py.Keeps.ite ?_ (Py.Keeps.pure _)
    exact Py.Keeps.bind (Py.Keeps.ofOption _ _) fun _ =>
      Py.Keeps.bind (Py.Keeps.ofOption _ _) fun _ => huniform _ _

theorem keeps_generation (heval : ∀ i, Py.Keeps I (fitnessEvaluate nx i)) :
    Py.Keeps I (generation nx fuel) := by
  refine Py.Keeps.bind hI.keeps_makeNewPopulation fun _ => ?_
  refine Py.Keeps.bind (hI.keeps_external _) fun _ => ?_
  refine Py.Keeps.bind (hI.keeps_current _) fun _ => ?_
  refine Py.Keeps.bind Py.Keeps.get fun s => ?_
  exact Py.Keeps.bind (Py.Keeps.forM fun _ _ => hI.keeps_selectOne) fun _ =>
    Py.Keeps.forM fun i _ => hI.keeps_crossPair heval i

/-- The creation of the first populations and the evaluation are left to show. -/
theorem keeps_main (heval : ∀ i, Py.Keeps I (fitnessEvaluate nx i))
    (hinit : Py.Keeps I (initPopulation nx)) : Py.Keeps I (main nx fuel) := by
  refine Py.Keeps.bind Py.Keeps.get fun s => ?_
  refine Py.Keeps.bind ?_ fun _ => ?_
  · exact Py.Keeps.bind hinit fun _ => Py.Keeps.bind (hI.keeps_external _) fun _ =>
      Py.Keeps.forM fun _ _ => hI.keeps_generation heval
  refine Py.Keeps.bind Py.Keeps.get fun s => ?_
  refine Py.Keeps.bind (keeps_sortBy _ _) fun population => ?_
  exact Py.Keeps.bind (hI.keeps_external _) fun _ =>
    Py.Keeps.bind (Py.Keeps.ofOption _ _) fun _ => Py.Keeps.pure _

end Framed
end SDRoute.NSGA2
